import OsProjects.Vm.Directory

/-!
# The kernel part of a page directory

`setupkvm` takes a frame for the directory and one for each of the twelve page tables of the kernel
part; user memory lies in the first of them.  When the frames do not suffice, it returns `NULL` and
keeps those it has taken (`setupkvm_spec`).
-/

namespace OsProjects.Vm

open Alloc (Fault Kmem pgsize phystop pointers Conserved Frames PartA.kalloc)

/-- What the linker makes of `data`: the section starts on a page, behind the text. -/
structure Layout (data : ℕ) : Prop where
  aligned : data % pgsize = 0
  behind_text : 0x100000 < data
  below_phystop : data < phystop

section Loops

variable {kalloc : Kmem → Except Fault (ℕ × Kmem)} {d : ℕ} {s : Kmem}

theorem mapLoop_append (xs ys : List Mapping) : mapLoop kalloc d (xs ++ ys) s =
    mapLoop kalloc d xs s >>= fun r => if r.1 then mapLoop kalloc d ys r.2 else pure r := by
  induction xs generalizing s with
  | nil => rfl
  | cons m xs ih =>
    rw [List.cons_append, mapLoop, mapLoop, bind_assoc]
    apply congrArg
    funext r
    obtain ⟨pte, s'⟩ := r
    dsimp only
    split
    · rfl
    split
    · rfl
    · exact ih

/-- The mappings of the kernel part. -/
def kernelMappings (ks : List Kmap) : List Mapping :=
  ks.flatMap fun k => mappings k.p ((k.e + pointers - k.p) % pointers) k.p k.perm

theorem kmapLoop_eq (ks : List Kmap) :
    kmapLoop kalloc d ks s = mapLoop kalloc d (kernelMappings ks) s := by
  induction ks generalizing s with
  | nil => rfl
  | cons k ks ih =>
    rw [kmapLoop, kernelMappings, List.flatMap_cons, mapLoop_append, mappages]
    apply congrArg
    funext r
    obtain ⟨ok, s'⟩ := r
    cases ok with
    | false => rfl
    | true => exact ih

end Loops

/-- Without `create`, `walkpgdir` leaves the memory alone. -/
theorem walkpgdir_false (kalloc : Kmem → Except Fault (ℕ × Kmem)) (pgdir va : ℕ) (s : Kmem) :
    walkpgdir kalloc pgdir va false s = .ok (if Present (s.next (pgdir + 4 * pdx va)) then
      pteAddr (s.next (pgdir + 4 * pdx va)) + 4 * ptx va else 0, s) := by
  rw [walkpgdir]
  split <;> rfl

/-! ### The pages -/

/-- The one mapping of a whole page. -/
theorem mappings_page {k r : ℕ} (hk : k < 2 ^ 20) (hr : r < pointers) (perm : ℕ) :
    mappings (pgsize * k) pgsize r perm = [⟨pgsize * k, r, perm⟩] := by
  have hdown : pgrounddown (pgsize * k) = pgsize * k := by
    unfold pgrounddown pgsize
    omega
  have hcount : (pgrounddown ((pgsize * k + pgsize + (pointers - 1)) % pointers) + pointers -
      pgsize * k) % pointers / pgsize + 1 = 1 := by
    unfold pgrounddown pgsize pointers at *
    omega
  have haddr : pgsize * k % pointers = pgsize * k := by
    apply Nat.mod_eq_of_lt
    unfold pgsize pointers
    omega
  rw [mappings, hdown, hcount]
  simp [haddr, Nat.mod_eq_of_lt hr]

theorem pages_append (xs ys : List Mapping) : pages (xs ++ ys) = pages xs ++ pages ys :=
  List.map_append

/-- The pages of a range of addresses. -/
theorem pages_mappings (la size pa perm : ℕ) (hla : la % pgsize = 0)
    (hsize : size % pgsize = 0) (hpos : 0 < size) (hle : la + size ≤ pointers) :
    pages (mappings la size pa perm) = List.range' (page la) (size / pgsize) := by
  have hcount : (pgrounddown ((la + size + (pointers - 1)) % pointers) + pointers -
      pgrounddown la) % pointers / pgsize + 1 = size / pgsize := by
    unfold pgrounddown pgsize pointers at *
    omega
  rw [pages, mappings, hcount, List.map_map, List.range'_eq_map_range]
  apply List.map_congr_left
  intro i hi
  have hi := List.mem_range.1 hi
  show page ((pgrounddown la + pgsize * i) % pointers) = page la + i
  unfold page pgrounddown pgsize pointers at *
  omega

theorem mappings_lt {la size pa perm : ℕ} : ∀ m ∈ mappings la size pa perm, m.a < pointers := by
  intro m hm
  obtain ⟨i, -, rfl⟩ := List.mem_map.1 hm
  exact Nat.mod_lt _ (by decide)

variable {data : ℕ}

theorem pages_kernel (hL : Layout data) : pages (kernelMappings (kmap data)) =
    List.range' 160 96 ++ (List.range' 256 (page data - 256) ++
      (List.range' (page data) (4096 - page data) ++ List.range' 0xFE000 8192)) := by
  obtain ⟨hal, htext, hstop⟩ := hL
  have h1 := pages_mappings usertop ((0x100000 + pointers - usertop) % pointers) usertop pteW
    (by decide) (by decide) (by decide) (by decide)
  have h2 := pages_mappings 0x100000 ((data + pointers - 0x100000) % pointers)
    0x100000 0 (by decide) (by unfold pgsize pointers phystop at *; omega)
    (by unfold pointers phystop at *; omega) (by unfold pointers phystop at *; omega)
  have h3 := pages_mappings data ((phystop + pointers - data) % pointers) data pteW hal
    (by unfold pgsize pointers phystop at *; omega)
    (by unfold pointers phystop at *; omega) (by unfold pointers phystop at *; omega)
  have h4 := pages_mappings 0xFE000000 ((0 + pointers - 0xFE000000) % pointers) 0xFE000000 pteW
    (by decide) (by decide) (by decide) (by decide)
  have hsize2 : (data + pointers - 0x100000) % pointers / pgsize = page data - 256 := by
    unfold page pgsize pointers phystop at *
    omega
  have hsize3 : (phystop + pointers - data) % pointers / pgsize = 4096 - page data := by
    unfold page pgsize pointers phystop at *
    omega
  rw [hsize2] at h2
  rw [hsize3] at h3
  simp only [kernelMappings, kmap, List.flatMap_cons, List.flatMap_nil, List.append_nil,
    pages_append, h1, h2, h3, h4]
  rfl

theorem mem_pages_kernel (hL : Layout data) {p : ℕ} :
    p ∈ pages (kernelMappings (kmap data)) ↔ 160 ≤ p ∧ p < 4096 ∨ 0xFE000 ≤ p ∧ p < 0x100000 := by
  obtain ⟨hal, htext, hstop⟩ := hL
  have hdata : 256 ≤ page data ∧ page data < 4096 := by
    unfold page pgsize phystop at *
    omega
  rw [pages_kernel ⟨hal, htext, hstop⟩]
  simp only [List.mem_append, List.mem_range'_1]
  omega

theorem nodup_pages_kernel (hL : Layout data) :
    (pages (kernelMappings (kmap data))).Nodup := by
  obtain ⟨hal, htext, hstop⟩ := hL
  have hdata : 256 ≤ page data ∧ page data < 4096 := by
    unfold page pgsize phystop at *
    omega
  have hnd : ∀ a n : ℕ, (List.range' a n).Nodup := fun a n => List.nodup_range'
  rw [pages_kernel ⟨hal, htext, hstop⟩]
  refine List.nodup_append'.2 ⟨hnd _ _, List.nodup_append'.2 ⟨hnd _ _, List.nodup_append'.2
    ⟨hnd _ _, hnd _ _, ?_⟩, ?_⟩, ?_⟩ <;> intro p hp hp' <;>
    simp only [List.mem_append, List.mem_range'_1] at hp hp' <;> omega

/-- The indices of the page tables of the kernel part. -/
def kernelTables : List ℕ := List.range 4 ++ List.range' 1016 8

theorem mem_kernelTables (hL : Layout data) {j : ℕ} :
    j ∈ kernelTables ↔ ∃ p ∈ pages (kernelMappings (kmap data)), p / 1024 = j := by
  simp only [kernelTables, List.mem_append, List.mem_range, List.mem_range'_1,
    mem_pages_kernel hL]
  constructor
  · intro hj
    refine ⟨1024 * j + 1023, ?_, ?_⟩ <;> omega
  · rintro ⟨p, hp, rfl⟩
    omega

/-! ### `setupkvm` -/

section Setup

variable {end_ : ℕ} {frames : List ℕ} {s : Kmem}

/-- **`setupkvm`.**  Without a free frame it returns `NULL`; with fewer than thirteen it returns
`NULL` and has kept one at least; otherwise it returns a directory with twelve tables. -/
theorem setupkvm_spec (hL : Layout data) (hF : Frames end_ frames) (hC : Conserved frames s) :
    ∃ d t, setupkvm PartA.kalloc data s = .ok (d, t) ∧ Conserved frames t ∧
      (d = 0 ∧ s.allocated.length = frames.length ∧ t.allocated = s.allocated ∨
        d = 0 ∧ s.allocated.length < frames.length ∧ frames.length < s.allocated.length + 13 ∧
          (∃ v ∈ t.allocated, v ∉ s.allocated) ∧ s.allocated ⊆ t.allocated ∨
        d ≠ 0 ∧ s.allocated.length + 13 ≤ frames.length ∧
          ∃ T, Directory t d T {p | p ∈ pages (kernelMappings (kmap data))} ∧
            t.allocated = s.allocated ++ d :: T.map Prod.snd ∧ T.length = 12) := by
  rw [setupkvm]
  rcases Nat.lt_or_ge s.allocated.length frames.length with hfree | hfull
  swap
  · have hfull := (allocated_length_le hC).antisymm hfull
    rw [kalloc_none hC hfull]
    exact ⟨0, s, rfl, hC, .inl ⟨rfl, hfull, rfl⟩⟩
  obtain ⟨d, s₁, hk, hd0, hd, hC₁, hal₁, -⟩ := kalloc_some hF hC hfree
  have hd₁ : d ∈ s₁.allocated := by simp [hal₁]
  obtain ⟨r, t, T, hmap, hCt, halt, hnd, hnew, htrue, hfalse⟩ := mapLoop_spec hF
    (conserved_clear hF hC₁ hd₁) (Directory.empty hd₁)
    (fun m hm => by
      obtain ⟨k, -, hmk⟩ := List.mem_flatMap.1 hm
      exact mappings_lt m hmk)
    (nodup_pages_kernel hL) (fun _ _ => id)
  rw [List.nil_append] at hnd htrue hfalse
  have halt : t.allocated = s.allocated ++ d :: T.map Prod.snd := by
    rw [halt, clear_allocated, hal₁, List.append_assoc]
    rfl
  have hlen : t.allocated.length = s.allocated.length + 1 + T.length := by
    rw [halt, List.length_append, List.length_cons, List.length_map]
    omega
  have hsub : T.map Prod.fst ⊆ kernelTables := fun j hj => (mem_kernelTables hL).2 (hnew j hj)
  have hle := allocated_length_le hCt
  simp only [hk, ok_bind, if_neg hd0, kmapLoop_eq, hmap]
  cases r with
  | false =>
    obtain ⟨hfull, p, hp, hpnot⟩ := hfalse rfl
    have hmissing : (p / 1024 :: T.map Prod.fst) ⊆ kernelTables :=
      List.cons_subset.2 ⟨(mem_kernelTables hL).2 ⟨p, hp, rfl⟩, hsub⟩
    have hcount := ((List.nodup_cons.2 ⟨hpnot, hnd⟩).subperm hmissing).length_le
    rw [List.length_cons, List.length_map] at hcount
    have htables : kernelTables.length = 12 := rfl
    refine ⟨0, t, rfl, hCt, .inr (.inl ⟨rfl, hfree, by omega, ⟨d, ?_, hd⟩, ?_⟩)⟩ <;> rw [halt]
    · simp
    · exact List.subset_append_left _ _
  | true =>
    have hD := htrue rfl
    rw [Set.empty_union] at hD
    have hkeys : kernelTables ⊆ T.map Prod.fst := by
      intro j hj
      obtain ⟨p, hp, rfl⟩ := (mem_kernelTables hL).1 hj
      exact hD.covers p hp
    have hcount := ((by decide : kernelTables.Nodup).subperm hkeys).length_le
    rw [List.length_map] at hcount
    have htables : kernelTables.length = 12 := rfl
    have hbound := (hnd.subperm hsub).length_le
    rw [List.length_map] at hbound
    exact ⟨d, t, rfl, hCt, .inr (.inr ⟨hd0, by omega, T, hD, halt, by omega⟩)⟩

end Setup

end OsProjects.Vm
