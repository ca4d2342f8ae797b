import OsProjects.Vm.Paging

/-!
# Address spaces

A `Space` is what a page directory owns: itself, its page tables and the frames of its user pages.
`Holds` says that the memory agrees with it: the user pages are mapped to different frames of their
own, and no other page can be reached in user mode.  `Evolves` is what an operation on one page
directory does, and it is confined to the frames of that directory.
-/

namespace OsProjects.Vm

open Alloc (Fault Kmem Part partA partB pgsize pointers Conserved Frames frameMemory)
open User (UserPage)

/-- The frames of a page directory: its own, those of the page tables with their indices, and those
of the user pages. -/
structure Space where
  dir : ℕ
  tables : List (ℕ × ℕ)
  user : ℕ → Option ℕ

/-- What the entry of page `p` may be. -/
def EntryOk (user : ℕ → Option ℕ) (p w : ℕ) : Prop :=
  if p < 160 then
    match user p with
    | some v => Present w ∧ pteAddr w = v
    | none => ¬Present w
  else ¬(Present w ∧ UserPage w)

namespace Space

def frames (A : Space) : Set ℕ :=
  {v | v ∈ A.dir :: A.tables.map Prod.snd ∨ ∃ p, A.user p = some v}

/-- The page table of the user pages exists. -/
def Ready (A : Space) : Prop := ∃ f, (0, f) ∈ A.tables

def setUser (A : Space) (p : ℕ) (x : Option ℕ) : Space :=
  { A with user := Function.update A.user p x }

/-- The memory agrees with the address space. -/
structure Holds (s : Kmem) (A : Space) : Prop where
  paging : Paging s A.dir A.tables
  user_mem : ∀ p v, A.user p = some v → v ∈ s.allocated
  apart : ∀ p v, A.user p = some v → v ∉ A.dir :: A.tables.map Prod.snd
  inj : ∀ p q v, A.user p = some v → A.user q = some v → p = q
  below : ∀ p v, A.user p = some v → p < 160
  entries : ∀ p < npages, EntryOk A.user p (lookup s A.dir p)

end Space

open Space

variable {P : Part} {end_ : ℕ} {frames : List ℕ} {s t u : Kmem} {A A' A'' : Space}
  {f p r v w : ℕ} {x : Option ℕ} {F : Set ℕ}

namespace Space.Holds

theorem frames_subset (h : A.Holds s) : A.frames ⊆ frameMemory.live s := by
  rintro v (hv | ⟨p, hp⟩)
  · exact h.paging.allocated v hv
  · exact h.user_mem p v hp

theorem table_mem_frames (hf : (j, f) ∈ A.tables) : f ∈ A.frames :=
  .inl (List.mem_cons_of_mem _ (List.mem_map_of_mem hf))

/-- The frames of a space that gives up a user page. -/
theorem frames_setUser_none (h : A.Holds s) (hu : A.user p = some v) :
    (A.setUser p none).frames ⊆ A.frames \ {v} := by
  rintro w (hw | ⟨q, hq⟩)
  · exact ⟨.inl hw, fun he => h.apart p v hu (Set.mem_singleton_iff.1 he ▸ hw)⟩
  · change Function.update A.user p none q = some w at hq
    rcases eq_or_ne q p with rfl | hne
    · rw [Function.update_self] at hq
      cases hq
    · rw [Function.update_of_ne hne] at hq
      refine ⟨.inr ⟨q, hq⟩, fun he => hne ?_⟩
      obtain rfl := Set.mem_singleton_iff.1 he
      exact h.inj q p w hq hu

/-- The pages below `USERTOP` that are mapped. -/
theorem present_iff (h : A.Holds s) (hp : p < 160) :
    Present (lookup s A.dir p) ↔ ∃ v, A.user p = some v := by
  have hentry := h.entries p (by unfold npages; omega)
  rw [EntryOk, if_pos hp] at hentry
  cases hu : A.user p with
  | none =>
    rw [hu] at hentry
    exact iff_of_false hentry nofun
  | some v =>
    rw [hu] at hentry
    exact iff_of_true hentry.1 ⟨v, rfl⟩

theorem pteAddr_eq (h : A.Holds s) (hu : A.user p = some v) : pteAddr (lookup s A.dir p) = v := by
  have hp := h.below p v hu
  have hentry := h.entries p (by unfold npages; omega)
  rw [EntryOk, if_pos hp, hu] at hentry
  exact hentry.2

/-- What is left of an address space when its tables are left alone. -/
theorem congr (h : A.Holds s) (hal : ∀ v ∈ A.frames, v ∈ t.allocated)
    (hw : ∀ v ∈ A.dir :: A.tables.map Prod.snd, ∀ i < 1024,
      t.next (v + 4 * i) = s.next (v + 4 * i)) : A.Holds t := by
  obtain ⟨hpaging, hlookup⟩ := h.paging.congr (fun v hv => hal v (.inl hv)) hw
  refine ⟨hpaging, fun p v hp => hal v (.inr ⟨p, hp⟩), h.apart, h.inj, h.below, fun p hp => ?_⟩
  rw [hlookup p hp]
  exact h.entries p hp

/-- What others do. -/
theorem others (h : A.Holds s) (hc : Confined frameMemory s F t F')
    (hd : ∀ v ∈ A.frames, v ∉ F) : A.Holds t :=
  h.congr (fun v hv => hc.kept v (h.frames_subset hv) (hd v hv)) fun v hv =>
    Alloc.content_eq_iff.1 (hc.content_eq v (h.frames_subset (.inl hv)) (hd v (.inl hv)))

theorem lookup_others (h : A.Holds s) (hc : Confined frameMemory s F t F')
    (hd : ∀ v ∈ A.frames, v ∉ F) : ∀ p < npages, lookup t A.dir p = lookup s A.dir p := by
  have hmem : ∀ v ∈ A.dir :: A.tables.map Prod.snd, v ∈ frameMemory.live s := fun v hv =>
    h.frames_subset (.inl hv)
  exact (h.paging.congr (fun v hv => hc.kept v (hmem v hv) (hd v (.inl hv))) fun v hv =>
    Alloc.content_eq_iff.1 (hc.content_eq v (hmem v hv) (hd v (.inl hv)))).2

/-- The entry of a user page. -/
theorem store_user (hF : Frames end_ frames) (hC : Conserved frames s) (h : A.Holds s)
    (hf : (0, f) ∈ A.tables) (hp : p < 160)
    (hx : ∀ v, x = some v → v ∈ s.allocated ∧ v ∉ A.dir :: A.tables.map Prod.snd ∧
      ∀ q, A.user q = some v → q = p)
    (hw : EntryOk (fun _ => x) p w) : (A.setUser p x).Holds (store (f + 4 * p) w s) := by
  obtain ⟨hpaging, hlookup⟩ := h.paging.store_user_entry hf hF hC hp w
  have huser : ∀ q v, (A.setUser p x).user q = some v →
      q = p ∧ x = some v ∨ q ≠ p ∧ A.user q = some v := by
    intro q v hq
    change Function.update A.user p x q = some v at hq
    rcases eq_or_ne q p with rfl | hne
    · rw [Function.update_self] at hq
      exact .inl ⟨rfl, hq⟩
    · rw [Function.update_of_ne hne] at hq
      exact .inr ⟨hne, hq⟩
  refine ⟨hpaging, fun q v hq => ?_, fun q v hq => ?_, fun q q' v hq hq' => ?_, fun q v hq => ?_,
    fun q hq => ?_⟩
  · rcases huser q v hq with ⟨-, hv⟩ | ⟨-, hv⟩
    · exact (hx v hv).1
    · exact h.user_mem q v hv
  · rcases huser q v hq with ⟨-, hv⟩ | ⟨-, hv⟩
    · exact (hx v hv).2.1
    · exact h.apart q v hv
  · rcases huser q v hq with ⟨rfl, hv⟩ | ⟨hne, hv⟩ <;>
      rcases huser q' v hq' with ⟨rfl, hv'⟩ | ⟨hne', hv'⟩
    · rfl
    · exact absurd ((hx v hv).2.2 q' hv') hne'
    · exact absurd ((hx v hv').2.2 q hv) hne
    · exact h.inj q q' v hv hv'
  · rcases huser q v hq with ⟨rfl, -⟩ | ⟨-, hv⟩
    · exact hp
    · exact h.below q v hv
  · show EntryOk (Function.update A.user p x) q (lookup _ A.dir q)
    rw [hlookup q hq]
    rcases eq_or_ne q p with rfl | hne
    · rw [Function.update_self]
      rw [EntryOk, if_pos hp] at hw ⊢
      rwa [Function.update_self]
    · rw [Function.update_of_ne hne]
      have hold := h.entries q hq
      rw [EntryOk] at hold ⊢
      rwa [Function.update_of_ne hne]

/-- The entry of a page of the kernel part. -/
theorem store_kernel (hF : Frames end_ frames) (hC : Conserved frames s) (h : A.Holds s)
    (hf : (p / 1024, f) ∈ A.tables) (hp : 160 ≤ p) (hw : ¬(Present w ∧ UserPage w)) :
    A.Holds (store (f + 4 * (p % 1024)) w s) := by
  obtain ⟨hpaging, hlookup⟩ := h.paging.store_entry hF hC hf w
  refine ⟨hpaging, h.user_mem, h.apart, h.inj, h.below, fun q hq => ?_⟩
  rw [hlookup q hq]
  rcases eq_or_ne q p with rfl | hne
  · rw [Function.update_self, EntryOk, if_neg (by omega)]
    exact hw
  · rw [Function.update_of_ne hne]
    exact h.entries q hq

/-- A new page table. -/
theorem new_table (hF : Frames end_ frames) (hC : Conserved frames s) (h : A.Holds s) {j : ℕ}
    (hj : j < 1024) (hnot : j ∉ A.tables.map Prod.fst) (hr : r ∈ s.allocated) (hrA : r ∉ A.frames) :
    Space.Holds (store (A.dir + 4 * j) (r ||| pteP ||| pteW ||| pteU) (clear r s))
      { A with tables := A.tables ++ [(j, r)] } := by
  obtain ⟨hpaging, hlookup⟩ := h.paging.new_table hF hC hj hnot hr fun hv => hrA (.inl hv)
  refine ⟨hpaging, h.user_mem, fun p v hp hv => ?_, h.inj, h.below, fun p hp => ?_⟩
  · rw [List.map_append, ← List.cons_append, List.mem_append] at hv
    rcases hv with hv | hv
    · exact h.apart p v hp hv
    · obtain rfl : v = r := List.mem_singleton.1 hv
      exact hrA (.inr ⟨p, hp⟩)
  · rw [hlookup p hp]
    exact h.entries p hp

end Space.Holds

/-! ### Evolution -/

/-- What an operation on one page directory does. -/
structure Evolves (frames : List ℕ) (s : Kmem) (A : Space) (t : Kmem) (A' : Space) : Prop where
  conserved : Conserved frames t
  holds : A'.Holds t
  confined : Confined frameMemory s A.frames t A'.frames
  dir : A'.dir = A.dir
  ready : A.Ready → A'.Ready

namespace Evolves

theorem refl (hC : Conserved frames s) (h : A.Holds s) : Evolves frames s A s A :=
  ⟨hC, h, .refl h.frames_subset, rfl, id⟩

theorem trans (h₁ : Evolves frames s A t A') (h₂ : Evolves frames t A' u A'') :
    Evolves frames s A u A'' :=
  ⟨h₂.conserved, h₂.holds, h₁.confined.trans h₂.confined, h₂.dir.trans h₁.dir,
    fun h => h₂.ready (h₁.ready h)⟩

end Evolves

/-- A store into an owned frame. -/
theorem store_confined (hF : Frames end_ frames) (hC : Conserved frames s)
    (hFs : F ⊆ frameMemory.live s) (hf : f ∈ F) {i : ℕ} (hi : i < 1024) (w : ℕ) :
    Conserved frames (store (f + 4 * i) w s) ∧
      Confined frameMemory s F (store (f + 4 * i) w s) F := by
  refine Alloc.writes_confined hF hC hFs _ fun a ha => Function.update_of_ne ?_ _ _
  rintro rfl
  exact ha f hf ⟨Nat.le_add_right _ _, by unfold pgsize; omega⟩

/-- A page of zeros or a copied page in an owned frame. -/
theorem clear_confined (hF : Frames end_ frames) (hC : Conserved frames s)
    (hFs : F ⊆ frameMemory.live s) (hf : f ∈ F) :
    Conserved frames (clear f s) ∧ Confined frameMemory s F (clear f s) F :=
  Alloc.writes_confined hF hC hFs _ fun _ ha => if_neg (ha f hf)

/-- `kalloc`, called for an address space. -/
theorem kalloc_space (hP : P = partA ∨ P = partB) (hF : Frames end_ frames)
    (hC : Conserved frames s) (h : A.Holds s) (hk : P.kalloc s = .ok (r, t)) :
    Conserved frames t ∧ A.Holds t ∧
      Confined frameMemory s A.frames t ({v | v = r ∧ r ≠ 0} ∪ A.frames) ∧
      (r ≠ 0 → r ∈ t.allocated ∧ r ∉ s.allocated ∧ r ∉ A.frames) := by
  have hc := Alloc.kalloc_confined hP hF hC hk
  obtain ⟨hCt, hcase⟩ := Alloc.kalloc_ok hP hF hC hk
  have hframe := hc.frame h.frames_subset fun v _ => Set.notMem_empty v
  rw [Set.empty_union] at hframe
  refine ⟨hCt, h.others hc fun v _ => Set.notMem_empty v, hframe, fun hr0 => ?_⟩
  have hnew : r ∉ s.allocated ∧ t.allocated = s.allocated ++ [r] :=
    (hcase.resolve_left fun h0 => hr0 h0.1).2
  exact ⟨hc.live ⟨rfl, hr0⟩, hnew.1, fun hrA => hnew.1 (h.frames_subset hrA)⟩

end OsProjects.Vm
