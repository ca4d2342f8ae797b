import OsProjects.Vm.Setup

/-!
# Freeing a page directory

`freevm` gives back the user pages, the page tables and the directory, and nothing else
(`freevm_spec`).  It frees the user pages first, while the table that lists them is still there.
-/

namespace OsProjects.Vm

open Alloc (Fault Kmem pgsize pointers kfree Conserved Frames)

/-- A directory under construction in which the first user pages are mapped, to the frames `U`; the
pages `K` of the kernel part lie above. -/
structure Copying (K : Set ℕ) (s : Kmem) (d : ℕ) (T : List (ℕ × ℕ)) (U : List ℕ) : Prop where
  directory : Directory s d T {p | p < U.length ∨ p ∈ K}
  above : ∀ p ∈ K, 160 ≤ p
  first : 160 ∈ K
  addr : ∀ f, (0, f) ∈ T → ∀ i v, U[i]? = some v → pteAddr (s.next (f + 4 * i)) = v
  allocated : ∀ v ∈ U, v ∈ s.allocated
  nodup : (d :: T.map Prod.snd ++ U).Nodup
  le : U.length ≤ 160

section Free

variable {kalloc : Kmem → Except Fault (ℕ × Kmem)} {end_ : ℕ} {frames : List ℕ} {s t : Kmem}
  {d f v : ℕ} {T : List (ℕ × ℕ)} {K : Set ℕ} {U : List ℕ}

/-- Freeing an allocated frame takes it out of the log and leaves the words of the others. -/
theorem kfree_spec (hF : Frames end_ frames) (hC : Conserved frames s) (hv : v ∈ s.allocated) :
    ∃ t, kfree end_ v s = .ok t ∧ Conserved frames t ∧
      (∀ a, a ∈ t.allocated ↔ a ∈ s.allocated ∧ a ≠ v) ∧
      ∀ v' ∈ s.allocated, v' ≠ v → ∀ i < 1024, t.next (v' + 4 * i) = s.next (v' + 4 * i) := by
  obtain ⟨t, ht, hCt, hal⟩ := Alloc.kfree_conserved hF hC hv
  refine ⟨t, ht, hCt, fun a => ?_, fun v' hv' hne i hi => ?_⟩
  · rw [hal, (allocated_nodup hF hC).mem_erase_iff, and_comm]
  · exact kfree_next ht (outside (aligned hF hC hv) (aligned hF hC hv') hne hi)

/-- The user pages from `i` on are mapped to the frames `U`. -/
structure Remaining (s : Kmem) (d f : ℕ) (T : List (ℕ × ℕ)) (i : ℕ) (U : List ℕ) : Prop where
  entries : Entries s d T
  table : (0, f) ∈ T
  present : ∀ k, i + k < 160 → (Present (s.next (f + 4 * (i + k))) ↔ k < U.length)
  addr : ∀ k v, U[k]? = some v → pteAddr (s.next (f + 4 * (i + k))) = v
  allocated : ∀ v ∈ d :: T.map Prod.snd ++ U, v ∈ s.allocated
  nodup : (d :: T.map Prod.snd ++ U).Nodup
  le : i + U.length ≤ 160

/-- The first loop of `freevm`. -/
theorem deallocLoop_spec (hF : Frames end_ frames) {n i : ℕ} (hn : i + n = 160)
    (hC : Conserved frames s) (hR : Remaining s d f T i U) :
    ∃ t, ((List.range' i n).map (pgsize * ·)).foldlM
        (fun s a => deallocPage kalloc end_ d a s) s = .ok t ∧
      Conserved frames t ∧ Entries t d T ∧
      ∀ a, a ∈ t.allocated ↔ a ∈ s.allocated ∧ a ∉ U := by
  induction n generalizing s i U with
  | zero =>
    obtain rfl : U = [] := List.length_eq_zero_iff.1 (by have := hR.le; omega)
    exact ⟨s, rfl, hC, hR.entries, by simp⟩
  | succ n ih =>
    rw [List.range'_succ, List.map_cons, List.foldlM_cons]
    have hpage : pdx (pgsize * i) = 0 ∧ ptx (pgsize * i) = i := by
      unfold pdx ptx pgsize
      omega
    obtain ⟨hpresent, haddr⟩ := hR.entries.pde 0 f hR.table
    have hwalk : walkpgdir kalloc d (pgsize * i) false s = .ok (f + 4 * i, s) := by
      rw [walkpgdir, hpage.1, if_pos hpresent, haddr, hpage.2]
      rfl
    have hfal : f ∈ s.allocated :=
      hR.allocated f
      (List.mem_append_left _ (List.mem_cons_of_mem _ (List.mem_map_of_mem hR.table)))
    have hpte : f + 4 * i ≠ 0 := by
      have := pointer_ne_zero hF hC hfal
      omega
    have hpresent0 := hR.present 0 (by omega)
    rw [Nat.add_zero] at hpresent0
    cases U with
    | nil =>
      -- This page was never mapped, nor were those behind it.
      have hnot : ¬Present (s.next (f + 4 * i)) := fun h => absurd (hpresent0.1 h) (by simp)
      have hstep : deallocPage kalloc end_ d (pgsize * i) s = .ok s := by
        rw [deallocPage, hwalk, ok_bind]
        exact if_neg fun h => hnot h.2
      rw [hstep, ok_bind]
      refine ih (by omega) hC ⟨hR.entries, hR.table,
        fun k hk => ?_, by simp, hR.allocated, hR.nodup,
        by simp; omega⟩
      rw [Nat.add_right_comm, Nat.add_assoc]
      simpa using hR.present (k + 1) (by omega)
    | cons v U =>
      have haddr0 := hR.addr 0 v rfl
      rw [Nat.add_zero] at haddr0
      have hnodup : (v :: (d :: T.map Prod.snd ++ U)).Nodup :=
        List.perm_middle.nodup_iff.1 hR.nodup
      obtain ⟨hvnot, hnd⟩ := List.nodup_cons.1 hnodup
      have hmem : ∀ w ∈ d :: T.map Prod.snd ++ U, w ∈ s.allocated ∧ w ≠ v := by
        intro w hw
        refine ⟨hR.allocated w ?_, fun h => hvnot (h ▸ hw)⟩
        rw [List.mem_append] at hw ⊢
        exact hw.imp id (List.mem_cons_of_mem _)
      have hv : v ∈ s.allocated := hR.allocated v (by simp)
      have hd := hmem d (by simp)
      have hfT : f ∈ d :: T.map Prod.snd ++ U :=
        List.mem_append_left _ (List.mem_cons_of_mem _ (List.mem_map_of_mem hR.table))
      have hfd : d ≠ f := by
        rintro rfl
        exact (List.nodup_cons.1 (List.nodup_append'.1 hnd).1).1 (List.mem_map_of_mem hR.table)
      obtain ⟨s₁, hs₁, hC₁, hal₁, hwords⟩ := kfree_spec hF hC hv
      have hmod : ∀ w ∈ s.allocated, w % pgsize = 0 := fun w hw => aligned hF hC hw
      have hstep : deallocPage kalloc end_ d (pgsize * i) s = .ok (store (f + 4 * i) 0 s₁) := by
        have hcond : f + 4 * i ≠ 0 ∧ Present (s.next (f + 4 * i)) :=
          ⟨hpte, hpresent0.2 (by simp)⟩
        simp only [deallocPage, hwalk, ok_bind, if_pos hcond, haddr0,
          if_neg (pointer_ne_zero hF hC hv), hs₁]
        rfl
      rw [hstep, ok_bind]
      -- Neither the directory nor the rest of the table is written.
      have hold : ∀ w ∈ d :: T.map Prod.snd ++ U, ∀ k < 1024, w + 4 * k ≠ f + 4 * i →
          (store (f + 4 * i) 0 s₁).next (w + 4 * k) = s.next (w + 4 * k) := by
        intro w hw k hk hne
        rw [store_next, Function.update_of_ne hne]
        exact hwords w (hmem w hw).1 (hmem w hw).2 k hk
      have hi : i < 160 := by omega
      have hlen := hR.le
      rw [List.length_cons] at hlen
      have hR' : Remaining (store (f + 4 * i) 0 s₁) d f T (i + 1) U := by
        refine ⟨hR.entries.congr fun k hk => hold d (by simp) k hk fun h => ?_, hR.table,
          fun k hk => ?_, fun k w hw => ?_, fun w hw => (hal₁ w).2 (hmem w hw), hnd, by omega⟩
        · exact hfd (word_inj (hmod d hd.1) (hmod f hfal) hk (by omega) h).1
        · rw [hold f hfT _ (by omega) (by omega), Nat.add_assoc, Nat.add_comm 1 k]
          simpa using hR.present (k + 1) (by omega)
        · have hk : k < U.length := (List.getElem?_eq_some_iff.1 hw).1
          rw [hold f hfT _ (by omega) (by omega), Nat.add_assoc, Nat.add_comm 1 k]
          exact hR.addr (k + 1) w hw
      have hC₂ := conserved_store hF hC₁ ((hal₁ f).2 (hmem f hfT)) (w := 0)
        (a := f + 4 * i) ⟨Nat.le_add_right _ _, by unfold pgsize; omega⟩
      obtain ⟨t, ht, hCt, hEt, hal⟩ := ih (by omega) hC₂ hR'
      refine ⟨t, ht, hCt, hEt, fun a => ?_⟩
      rw [hal, store_allocated, hal₁, List.mem_cons, not_or, and_assoc]

/-- The second loop of `freevm`. -/
theorem freeTables_spec (hF : Frames end_ frames) {js : List ℕ} (hlt : ∀ j ∈ js, j < 1024)
    (hnd : js.Nodup) (hC : Conserved frames s) (hE : Entries s d T)
    (hal : ∀ j f, (j, f) ∈ T → j ∈ js → f ∈ s.allocated) (hd : d ∈ s.allocated)
    (hT : (d :: T.map Prod.snd).Nodup) :
    ∃ t, js.foldlM (fun s i => freeTable end_ d i s) s = .ok t ∧ Conserved frames t ∧
      (∀ a, a ∈ t.allocated ↔ a ∈ s.allocated ∧ ∀ j ∈ js, (j, a) ∉ T) ∧
      ∀ v ∈ s.allocated, v ∉ T.map Prod.snd →
        ∀ i < 1024, t.next (v + 4 * i) = s.next (v + 4 * i) := by
  induction js generalizing s with
  | nil => exact ⟨s, rfl, hC, by simp, fun _ _ _ _ _ => rfl⟩
  | cons j js ih =>
    rw [List.forall_mem_cons] at hlt
    obtain ⟨hj, hjs⟩ := List.nodup_cons.1 hnd
    rw [List.foldlM_cons, freeTable]
    by_cases hkey : j ∈ T.map Prod.fst
    · obtain ⟨⟨j', f⟩, hf, rfl : j' = j⟩ := List.mem_map.1 hkey
      obtain ⟨hpresent, haddr⟩ := hE.pde j' f hf
      have hfd : d ≠ f := by
        rintro rfl
        exact (List.nodup_cons.1 hT).1 (List.mem_map_of_mem hf)
      have huniq : ∀ i g, (i, g) ∈ T → i ≠ j' → g ≠ f := by
        rintro i g hg hij rfl
        have hpair := List.inj_on_of_nodup_map (List.nodup_cons.1 hT).2 hg hf rfl
        exact hij (Prod.mk.inj hpair).1
      have hkeyf : ∀ g, (j', g) ∈ T → g = f := by
        intro g hg
        have hpair := List.inj_on_of_nodup_map hE.keys_nodup hg hf rfl
        exact (Prod.mk.inj hpair).2
      obtain ⟨s₁, hs₁, hC₁, hal₁, hwords⟩ := kfree_spec hF hC (hal j' f hf List.mem_cons_self)
      rw [if_pos hpresent, haddr, hs₁, ok_bind]
      obtain ⟨t, ht, hCt, halt, hrest⟩ := ih hlt.2 hjs hC₁
        (hE.congr fun i hi => hwords d hd hfd i hi)
        (fun i g hg hi => (hal₁ g).2 ⟨hal i g hg (List.mem_cons_of_mem _ hi),
          huniq i g hg fun h => hj (h ▸ hi)⟩)
        ((hal₁ d).2 ⟨hd, hfd⟩)
      refine ⟨t, ht, hCt, fun a => ?_, fun v hv hvT i hi => ?_⟩
      · have hne : a ≠ f ↔ (j', a) ∉ T := by
          refine not_congr ⟨?_, hkeyf a⟩
          rintro rfl
          exact hf
        rw [halt, hal₁, and_assoc, hne, List.forall_mem_cons]
      · have hvf : v ≠ f := fun he => hvT (he ▸ List.mem_map_of_mem hf)
        rw [hrest v ((hal₁ v).2 ⟨hv, hvf⟩) hvT i hi, hwords v hv hvf i hi]
    · rw [if_neg (hE.absent j hlt.1 hkey)]
      obtain ⟨t, ht, hCt, halt, hrest⟩ := ih hlt.2 hjs hC hE
        (fun i g hg hi => hal i g hg (List.mem_cons_of_mem _ hi)) hd
      refine ⟨t, ht, hCt, fun a => ?_, hrest⟩
      have hnot : (j, a) ∉ T := fun h => hkey (List.mem_map_of_mem h)
      rw [halt, List.forall_mem_cons]
      exact and_congr_right fun _ => (and_iff_right hnot).symm

theorem pagesBetween_zero (n : ℕ) :
    pagesBetween 0 n = (List.range ((n + (pgsize - 1)) / pgsize)).map (pgsize * ·) := by
  have h0 : Alloc.pgroundup 0 = 0 := by decide
  rw [pagesBetween, h0, Nat.sub_zero]
  simp only [Nat.zero_add]

variable (kalloc) in
/-- **`freevm`** gives back exactly the frames of the directory. -/
theorem freevm_spec (hF : Frames end_ frames) (hC : Conserved frames s)
    (hK : Copying K s d T U) (hf : (0, f) ∈ T) :
    ∃ t, freevm kalloc end_ d s = .ok t ∧ Conserved frames t ∧
      ∀ a, a ∈ t.allocated ↔ a ∈ s.allocated ∧ a ∉ d :: T.map Prod.snd ++ U := by
  have hD := hK.directory
  have hd : d ∈ s.allocated := hD.allocated d List.mem_cons_self
  have hmem : ∀ v ∈ d :: T.map Prod.snd ++ U, v ∈ s.allocated := by
    intro v hv
    exact (List.mem_append.1 hv).elim (hD.allocated v) (hK.allocated v)
  have hR : Remaining s d f T 0 U := by
    refine ⟨hD.entries, hf, fun k hk => ?_, fun k v hv => ?_, hmem, hK.nodup, ?_⟩
    · rw [hD.pte 0 f hf _ (by omega)]
      simp only [Set.mem_ofPred_eq]
      refine ⟨fun h => ?_, fun h => .inl (by omega)⟩
      rcases h with h | h
      · omega
      · have := hK.above _ h
        omega
    · rw [Nat.zero_add]
      exact hK.addr f hf k v hv
    · rw [Nat.zero_add]
      exact hK.le
  have hpages : pagesBetween 0 usertop = (List.range' 0 160).map (pgsize * ·) := by
    have hcount : (usertop + (pgsize - 1)) / pgsize = 160 := by decide
    rw [pagesBetween_zero, hcount, List.range_eq_range']
  obtain ⟨s₁, h₁, hC₁, hE₁, hal₁⟩ := deallocLoop_spec (n := 160) (i := 0) hF rfl hC hR
  have hnotU : ∀ v ∈ d :: T.map Prod.snd, v ∉ U := fun v hv hU =>
    (List.nodup_append'.1 hK.nodup).2.2 hv hU
  have hd₁ : d ∈ s₁.allocated := (hal₁ d).2 ⟨hd, hnotU d List.mem_cons_self⟩
  obtain ⟨s₂, h₂, hC₂, hal₂, -⟩ := freeTables_spec hF
    (fun j (hj : j ∈ List.range npdentries) => List.mem_range.1 hj) List.nodup_range hC₁ hE₁
    (fun j g hg _ => (hal₁ g).2 ⟨hD.table_allocated hg,
      hnotU g (List.mem_cons_of_mem _ (List.mem_map_of_mem hg))⟩) hd₁ hD.nodup
  have hd₂ : d ∈ s₂.allocated :=
    (hal₂ d).2 ⟨hd₁, fun j _ hj => (hD.table_ne hj) rfl⟩
  obtain ⟨t, ht, hCt, halt, -⟩ := kfree_spec hF hC₂ hd₂
  refine ⟨t, ?_, hCt, fun a => ?_⟩
  · rw [freevm, if_neg (pointer_ne_zero hF hC hd), deallocuvm, if_neg (by decide), hpages, h₁,
      ok_bind, h₂, ok_bind, ht]
  · have hT : (∀ j ∈ List.range npdentries, (j, a) ∉ T) ↔ a ∉ T.map Prod.snd := by
      rw [List.mem_map]
      constructor
      · rintro h ⟨⟨j, g⟩, hg, rfl⟩
        exact h j (List.mem_range.2 (hD.lt j (List.mem_map_of_mem hg))) hg
      · intro h j _ hj
        exact h ⟨(j, a), hj, rfl⟩
    rw [halt, hal₂, hal₁, hT, List.mem_append, List.mem_cons]
    constructor
    · rintro ⟨⟨⟨ha, hU⟩, hnotT⟩, hne⟩
      exact ⟨ha, not_or.2 ⟨not_or.2 ⟨hne, hnotT⟩, hU⟩⟩
    · rintro ⟨ha, hnot⟩
      obtain ⟨hnot, hU⟩ := not_or.1 hnot
      obtain ⟨hne, hnotT⟩ := not_or.1 hnot
      exact ⟨⟨⟨ha, hU⟩, hnotT⟩, hne⟩

end Free

end OsProjects.Vm
