import OsProjects.Vm.Free
import OsProjects.Vm.User
import OsProjects.Alloc.Frames

/-!
# The page table as a function

`lookup s d p` is the entry that the directory `d` has for page `p`.  Writing an entry changes this
function in one place (`Paging.store_entry`), and a new page table does not change it
(`Paging.new_table`), so that everything above this file speaks of `lookup` only.
-/

namespace OsProjects.Vm

open Alloc (Fault Kmem pgsize pointers Conserved Frames)

/-- The entry of page `p`, or `0` where its page table does not exist. -/
def lookup (s : Kmem) (pgdir p : ℕ) : ℕ :=
  if Present (s.next (pgdir + 4 * (p / 1024))) then
    s.next (pteAddr (s.next (pgdir + 4 * (p / 1024))) + 4 * (p % 1024))
  else 0

/-- The pages of the address space. -/
def npages : ℕ := 2 ^ 20

/-- A page directory at `d` with the page tables `T`, index and frame. -/
structure Paging (s : Kmem) (d : ℕ) (T : List (ℕ × ℕ)) : Prop where
  entries : Entries s d T
  allocated : ∀ v ∈ d :: T.map Prod.snd, v ∈ s.allocated
  nodup : (d :: T.map Prod.snd).Nodup

namespace Paging

variable {end_ : ℕ} {frames : List ℕ} {s t : Kmem} {d f i j p r : ℕ} {T : List (ℕ × ℕ)}

theorem dir_mem (h : Paging s d T) : d ∈ s.allocated := h.allocated d List.mem_cons_self

theorem table_mem (h : Paging s d T) (hf : (j, f) ∈ T) : f ∈ s.allocated :=
  h.allocated f (List.mem_cons_of_mem _ (List.mem_map_of_mem hf))

theorem table_ne (h : Paging s d T) (hf : (j, f) ∈ T) : f ≠ d := by
  rintro rfl
  exact (List.nodup_cons.1 h.nodup).1 (List.mem_map_of_mem hf)

theorem lookup_eq (h : Paging s d T) (hf : (p / 1024, f) ∈ T) :
    lookup s d p = s.next (f + 4 * (p % 1024)) := by
  obtain ⟨hpresent, haddr⟩ := h.entries.pde _ _ hf
  rw [lookup, if_pos hpresent, haddr]

theorem lookup_absent (h : Paging s d T) (hp : p < npages) (hnot : p / 1024 ∉ T.map Prod.fst) :
    lookup s d p = 0 := by
  refine if_neg (h.entries.absent _ ?_ hnot)
  unfold npages at hp
  omega

/-- What is left of a directory when its frames are left alone. -/
theorem congr (h : Paging s d T) (hal : ∀ v ∈ d :: T.map Prod.snd, v ∈ t.allocated)
    (hw : ∀ v ∈ d :: T.map Prod.snd, ∀ i < 1024, t.next (v + 4 * i) = s.next (v + 4 * i)) :
    Paging t d T ∧ ∀ p < npages, lookup t d p = lookup s d p := by
  have hE := h.entries.congr (t := t) fun i hi => hw d List.mem_cons_self i hi
  have ht : Paging t d T := ⟨hE, hal, h.nodup⟩
  refine ⟨ht, fun p hp => ?_⟩
  by_cases hkey : p / 1024 ∈ T.map Prod.fst
  · obtain ⟨⟨j, f⟩, hf, rfl : j = p / 1024⟩ := List.mem_map.1 hkey
    rw [ht.lookup_eq hf, h.lookup_eq hf]
    exact hw f (List.mem_cons_of_mem _ (List.mem_map_of_mem hf)) _ (Nat.mod_lt _ (by decide))
  · rw [ht.lookup_absent hp hkey, h.lookup_absent hp hkey]

/-- Writing one entry. -/
theorem store_entry (hF : Frames end_ frames) (hC : Conserved frames s) (h : Paging s d T)
    (hf : (p / 1024, f) ∈ T) (w : ℕ) :
    Paging (store (f + 4 * (p % 1024)) w s) d T ∧ ∀ q < npages,
      lookup (store (f + 4 * (p % 1024)) w s) d q = Function.update (lookup s d) p w q := by
  have hmod : ∀ v ∈ d :: T.map Prod.snd, v % pgsize = 0 := fun v hv =>
    aligned hF hC (h.allocated v hv)
  have hfmod := aligned hF hC (h.table_mem hf)
  have hlt : p % 1024 < 1024 := Nat.mod_lt _ (by decide)
  have hdir : ∀ i < 1024,
      (store (f + 4 * (p % 1024)) w s).next (d + 4 * i) = s.next (d + 4 * i) := fun i hi => by
    rw [store_next, Function.update_of_ne]
    intro he
    exact h.table_ne hf (word_inj (hmod d List.mem_cons_self) hfmod hi hlt he).1.symm
  have ht : Paging (store (f + 4 * (p % 1024)) w s) d T :=
    ⟨h.entries.congr hdir, h.allocated, h.nodup⟩
  refine ⟨ht, fun q hqlt => ?_⟩
  rcases eq_or_ne q p with rfl | hq
  · rw [Function.update_self, ht.lookup_eq hf, store_next, Function.update_self]
  · rw [Function.update_of_ne hq]
    by_cases hkey : q / 1024 ∈ T.map Prod.fst
    · obtain ⟨⟨j, g⟩, hg, rfl : j = q / 1024⟩ := List.mem_map.1 hkey
      rw [ht.lookup_eq hg, h.lookup_eq hg, store_next, Function.update_of_ne]
      intro he
      obtain ⟨rfl, hi⟩ := word_inj (aligned hF hC (h.table_mem hg)) hfmod
        (Nat.mod_lt _ (by decide)) hlt he
      have hpair := List.inj_on_of_nodup_map (List.nodup_cons.1 h.nodup).2 hg hf rfl
      have hj := (Prod.mk.inj hpair).1
      omega
    · rw [ht.lookup_absent hqlt hkey, h.lookup_absent hqlt hkey]

/-- A new page table in the frame `r`. -/
theorem new_table (hF : Frames end_ frames) (hC : Conserved frames s) (h : Paging s d T)
    (hj : j < 1024) (hnot : j ∉ T.map Prod.fst) (hr : r ∈ s.allocated)
    (hrT : r ∉ d :: T.map Prod.snd) :
    Paging (store (d + 4 * j) (r ||| pteP ||| pteW ||| pteU) (clear r s)) d (T ++ [(j, r)]) ∧
      ∀ p < npages, lookup (store (d + 4 * j) (r ||| pteP ||| pteW ||| pteU) (clear r s)) d p =
        lookup s d p := by
  have hrmod := aligned hF hC hr
  have hd := aligned hF hC h.dir_mem
  have hrd : r ≠ d := fun he => hrT (he ▸ List.mem_cons_self)
  have ht : Paging (store (d + 4 * j) (r ||| pteP ||| pteW ||| pteU) (clear r s)) d
      (T ++ [(j, r)]) := by
    refine ⟨h.entries.new_table hd hrmod hrd hj hnot, fun v hv => ?_, ?_⟩
    · rw [List.map_append, ← List.cons_append, List.mem_append] at hv
      rcases hv with hv | hv
      · exact h.allocated v hv
      · exact List.mem_singleton.1 hv ▸ hr
    · rw [List.map_append, ← List.cons_append]
      exact List.nodup_append'.2 ⟨h.nodup, List.nodup_singleton r, by simpa using hrT⟩
  refine ⟨ht, fun p hp => ?_⟩
  by_cases hkey : p / 1024 ∈ T.map Prod.fst
  · obtain ⟨⟨i, f⟩, hf, rfl : i = p / 1024⟩ := List.mem_map.1 hkey
    have hrf : r ≠ f := fun he => hrT (he ▸ List.mem_cons_of_mem _ (List.mem_map_of_mem hf))
    rw [ht.lookup_eq (List.mem_append_left _ hf), h.lookup_eq hf]
    exact newTable_next hd hrmod (aligned hF hC (h.table_mem hf)) hrf hj
      (Nat.mod_lt _ (by decide)) (fun he => absurd he (h.table_ne hf)) _
  · rw [h.lookup_absent hp hkey]
    by_cases hpj : p / 1024 = j
    · subst hpj
      rw [ht.lookup_eq (List.mem_append_right _ (List.mem_singleton_self _)), store_next,
        Function.update_of_ne, clear_next_self (Nat.mod_lt _ (by decide))]
      intro he
      exact hrd (word_inj hrmod hd (Nat.mod_lt _ (by decide)) hj he).1
    · refine ht.lookup_absent hp ?_
      rw [List.map_append, List.mem_append, not_or]
      exact ⟨hkey, fun hm => hpj (List.mem_singleton.1 hm)⟩

/-- The empty directory. -/
theorem empty (hd : d ∈ s.allocated) :
    Paging (clear d s) d [] ∧ ∀ p < npages, lookup (clear d s) d p = 0 := by
  have h : Paging (clear d s) d [] := by
    refine ⟨⟨List.nodup_nil, fun _ _ hf => absurd hf List.not_mem_nil, fun j hj _ => ?_,
      fun _ hj => absurd hj List.not_mem_nil⟩, by simpa using hd, List.nodup_singleton d⟩
    rw [clear_next_self hj]
    exact not_present_zero
  exact ⟨h, fun p hp => h.lookup_absent hp List.not_mem_nil⟩

/-! ### `walkpgdir` -/

/-- The entry of a page whose table exists. -/
theorem walk (h : Paging s d T) {a : ℕ} (ha : a < pointers) (hf : (page a / 1024, f) ∈ T)
    (kalloc : Kmem → Except Fault (ℕ × Kmem)) (create : Bool) :
    walkpgdir kalloc d a create s = .ok (f + 4 * (page a % 1024), s) := by
  obtain ⟨hpresent, haddr⟩ := h.entries.pde _ _ hf
  rw [walkpgdir, pdx_eq ha, if_pos hpresent, haddr, ptx_eq]
  rfl

/-! ### The user pages

All of them are in the first page table. -/

section User

variable (h : Paging s d T) (hf : (0, f) ∈ T)

include h hf

theorem pte_ne_zero (hF : Frames end_ frames) (hC : Conserved frames s) (p : ℕ) :
    f + 4 * p ≠ 0 := by
  have := pointer_ne_zero hF hC (h.table_mem hf)
  omega

theorem lookup_user (hp : p < 160) : lookup s d p = s.next (f + 4 * p) := by
  have hfp : (p / 1024, f) ∈ T := by rwa [Nat.div_eq_of_lt (by omega)]
  rw [h.lookup_eq hfp, Nat.mod_eq_of_lt (by omega)]

theorem walk_user (hp : p < 160) (kalloc : Kmem → Except Fault (ℕ × Kmem)) (create : Bool) :
    walkpgdir kalloc d (pgsize * p) create s = .ok (f + 4 * p, s) := by
  have hfp : (page (pgsize * p) / 1024, f) ∈ T := by
    rwa [page_pgsize_mul, Nat.div_eq_of_lt (by omega)]
  rw [h.walk (user_lt_pointers hp) hfp, page_pgsize_mul, Nat.mod_eq_of_lt (by omega)]

theorem store_user_entry (hF : Frames end_ frames) (hC : Conserved frames s) (hp : p < 160)
    (w : ℕ) : Paging (store (f + 4 * p) w s) d T ∧ ∀ q < npages,
      lookup (store (f + 4 * p) w s) d q = Function.update (lookup s d) p w q := by
  have hfp : (p / 1024, f) ∈ T := by rwa [Nat.div_eq_of_lt (by omega)]
  have hstore := h.store_entry hF hC hfp w
  rwa [Nat.mod_eq_of_lt (by omega)] at hstore

end User

end Paging

end OsProjects.Vm
