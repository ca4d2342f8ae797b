import OsProjects.Vm.Model
import OsProjects.Alloc.Conservation
import OsProjects.Foundation.Loop

/-!
# Building a page directory

`Directory s d T M` says what a page directory is while it is built: `T` lists its page tables with
their indices, `M` is the set of mapped pages, and directory and tables are distinct allocated
frames.  `mapLoop_spec` says what mapping further pages does to it, and what is left when the free
frames do not suffice; `setupkvm_spec` counts the frames of the kernel part.
-/

namespace OsProjects.Vm

open Alloc (Fault Kmem pgsize phystop pointers kfree Conserved Frames PartA.kalloc)

/-! ### Words of frames -/

section Words

variable {s : Kmem} {a v v' i w : ℕ}

@[simp] theorem store_next (a w : ℕ) (s : Kmem) : (store a w s).next = Function.update s.next a w :=
  rfl

@[simp] theorem store_allocated (a w : ℕ) (s : Kmem) : (store a w s).allocated = s.allocated := rfl

@[simp] theorem clear_allocated (v : ℕ) (s : Kmem) : (clear v s).allocated = s.allocated := rfl

@[simp] theorem copyPage_allocated (dst src : ℕ) (s : Kmem) :
    (copyPage dst src s).allocated = s.allocated := rfl

/-- A word of a frame. -/
theorem clear_next_self (hi : i < 1024) : (clear v s).next (v + 4 * i) = 0 := by
  refine if_pos ⟨by omega, ?_⟩
  rw [pgsize]
  omega

/-- The words of different frames. -/
theorem outside (hv : v % pgsize = 0) (hv' : v' % pgsize = 0) (hne : v' ≠ v) (hi : i < 1024) :
    ¬(v ≤ v' + 4 * i ∧ v' + 4 * i < v + pgsize) := by
  unfold pgsize at *
  omega

theorem word_inj {i' : ℕ} (hv : v % pgsize = 0) (hv' : v' % pgsize = 0) (hi : i < 1024)
    (hi' : i' < 1024) (h : v + 4 * i = v' + 4 * i') : v = v' ∧ i = i' := by
  unfold pgsize at *
  omega

/-- What a frame owner's writes leave alone. -/
theorem kfree_next {end_ : ℕ} {t : Kmem} (h : kfree end_ v s = .ok t)
    (ha : ¬(v ≤ a ∧ a < v + pgsize)) : t.next a = s.next a := by
  unfold Alloc.kfree at h
  split at h
  · cases h
  · obtain rfl := Except.ok.inj h
    have hne : a ≠ v := by
      rintro rfl
      exact ha ⟨le_rfl, by unfold pgsize; omega⟩
    rw [Alloc.unlogFrame_next]
    show Function.update (Alloc.memsetJunk v s.next) v s.freelist a = s.next a
    rw [Function.update_of_ne hne, Alloc.memsetJunk, if_neg ha]

end Words

/-! ### The allocator -/

section Allocator

variable {end_ : ℕ} {frames : List ℕ} {s t : Kmem} {a v w : ℕ}

theorem mem_frames (h : Conserved frames s) (hv : v ∈ s.allocated) : v ∈ frames := by
  obtain ⟨free, -, hperm⟩ := h
  exact hperm.subset (List.mem_append_right _ hv)

theorem aligned (hF : Frames end_ frames) (h : Conserved frames s) (hv : v ∈ s.allocated) :
    v % pgsize = 0 := (hF.valid v (mem_frames h hv)).1

theorem allocated_nodup (hF : Frames end_ frames) (h : Conserved frames s) :
    s.allocated.Nodup := by
  obtain ⟨free, -, hperm⟩ := h
  exact (List.nodup_append'.1 (hperm.nodup_iff.2 hF.nodup)).2.1

/-- Writes into an allocated frame. -/
theorem conserved_writes (hF : Frames end_ frames) (h : Conserved frames s) (hv : v ∈ s.allocated)
    {next : ℕ → ℕ} (hw : ∀ a, ¬(v ≤ a ∧ a < v + pgsize) → next a = s.next a) :
    Conserved frames { s with next := next } :=
  Alloc.write_conserved hF h fun a ha => hw a fun hin => ha ⟨v, hv, hin⟩

theorem conserved_store (hF : Frames end_ frames) (h : Conserved frames s) (hv : v ∈ s.allocated)
    (ha : v ≤ a ∧ a < v + pgsize) : Conserved frames (store a w s) := by
  refine conserved_writes hF h hv fun b hb => Function.update_of_ne ?_ _ _
  rintro rfl
  exact hb ha

theorem conserved_clear (hF : Frames end_ frames) (h : Conserved frames s)
    (hv : v ∈ s.allocated) : Conserved frames (clear v s) :=
  conserved_writes hF h hv fun _ hb => if_neg hb

theorem conserved_copyPage (hF : Frames end_ frames) (h : Conserved frames s)
    (hv : v ∈ s.allocated) (src : ℕ) : Conserved frames (copyPage v src s) :=
  conserved_writes hF h hv fun _ hb => if_neg hb

theorem allocated_length_le (h : Conserved frames s) : s.allocated.length ≤ frames.length := by
  obtain ⟨free, -, hperm⟩ := h
  rw [← hperm.length_eq, List.length_append]
  omega

/-- Without a free frame, `kalloc` returns `NULL`. -/
theorem kalloc_none (h : Conserved frames s) (hn : s.allocated.length = frames.length) :
    PartA.kalloc s = .ok (0, s) := by
  obtain ⟨free, hc, hperm⟩ := h
  have hlen := hperm.length_eq
  rw [List.length_append] at hlen
  obtain rfl : free = [] := List.length_eq_zero_iff.1 (by omega)
  exact Alloc.kallocA_nil hc

/-- With a free frame, `kalloc` moves one to the log. -/
theorem kalloc_some (hF : Frames end_ frames) (h : Conserved frames s)
    (hn : s.allocated.length < frames.length) :
    ∃ r t, PartA.kalloc s = .ok (r, t) ∧ r ≠ 0 ∧ r ∉ s.allocated ∧ Conserved frames t ∧
      t.allocated = s.allocated ++ [r] ∧ t.next = s.next := by
  obtain ⟨r, t, hk, ht, hcase⟩ := Alloc.kalloc_conserved (.inl rfl) hF h trivial
  change PartA.kalloc s = _ at hk
  have hne : s.freelist ≠ 0 := by
    obtain ⟨free, hc, hperm⟩ := h
    have hlen := hperm.length_eq
    rw [List.length_append] at hlen
    intro h0
    rw [← hc.eq_nil_iff] at h0
    rw [h0, List.length_nil] at hlen
    omega
  have hr : r = s.freelist ∧ t.next = s.next := by
    rw [PartA.kalloc, if_pos hne, bind_ok] at hk
    obtain ⟨u, hu, hrt⟩ := hk
    obtain ⟨rfl, rfl⟩ := Prod.mk.inj (Except.ok.inj hrt)
    rw [Alloc.logFrame] at hu
    split at hu
    · obtain rfl := Except.ok.inj hu
      exact ⟨rfl, rfl⟩
    · cases hu
  have hr0 : r ≠ 0 := hr.1 ▸ hne
  rcases hcase with ⟨h0, -⟩ | ⟨hnot, hal⟩
  · exact absurd h0 hr0
  · exact ⟨r, t, hk, hr0, hnot, ht, hal, hr.2⟩

end Allocator

/-! ### Page directories -/

/-- The entries of the directory at `d` are those of the page tables `T`, index and frame. -/
structure Entries (s : Kmem) (d : ℕ) (T : List (ℕ × ℕ)) : Prop where
  keys_nodup : (T.map Prod.fst).Nodup
  pde : ∀ j f, (j, f) ∈ T → Present (s.next (d + 4 * j)) ∧ pteAddr (s.next (d + 4 * j)) = f
  absent : ∀ j < 1024, j ∉ T.map Prod.fst → ¬Present (s.next (d + 4 * j))
  lt : ∀ j ∈ T.map Prod.fst, j < 1024

section Entries

variable {s t : Kmem} {d i j r v : ℕ} {T : List (ℕ × ℕ)}

theorem Entries.congr (hE : Entries s d T)
    (h : ∀ i < 1024, t.next (d + 4 * i) = s.next (d + 4 * i)) :
    Entries t d T := by
  refine ⟨hE.keys_nodup, fun j f hf => ?_, fun j hj hnot => ?_, hE.lt⟩
  · rw [h j (hE.lt j (List.mem_map_of_mem hf))]
    exact hE.pde j f hf
  · rw [h j hj]
    exact hE.absent j hj hnot

/-- A new page table in the frame `r` changes no words but its own and its entry. -/
theorem newTable_next (hd : d % pgsize = 0) (hr : r % pgsize = 0) (hv : v % pgsize = 0)
    (hne : r ≠ v) (hj : j < 1024) (hi : i < 1024) (hij : v = d → i ≠ j) (w : ℕ) :
    (store (d + 4 * j) w (clear r s)).next (v + 4 * i) = s.next (v + 4 * i) := by
  rw [store_next, Function.update_of_ne]
  · exact if_neg (outside hr hv hne.symm hi)
  · intro h
    obtain ⟨hvd, h⟩ := word_inj hv hd hi hj h
    exact hij hvd h

theorem Entries.new_table (h : Entries s d T) (hd : d % pgsize = 0) (hr : r % pgsize = 0)
    (hne : r ≠ d) (hj : j < 1024) (hnot : j ∉ T.map Prod.fst) :
    Entries (store (d + 4 * j) (r ||| pteP ||| pteW ||| pteU) (clear r s)) d (T ++ [(j, r)]) := by
  have hflags : r ||| pteP ||| pteW ||| pteU = r ||| 7 := by
    rw [Nat.or_assoc, Nat.or_assoc]
    rfl
  rw [hflags]
  refine ⟨?_, fun i f hf => ?_, fun i hi hnoti => ?_, fun i hi => ?_⟩
  · rw [List.map_append]
    exact List.nodup_append'.2 ⟨h.keys_nodup, List.nodup_singleton j, by simpa using hnot⟩
  · rcases List.mem_append.1 hf with hf | hf
    · have hij : i ≠ j := fun he => hnot (he ▸ List.mem_map_of_mem hf)
      rw [newTable_next hd hr hd hne hj (h.lt i (List.mem_map_of_mem hf)) fun _ => hij]
      exact h.pde i f hf
    · obtain ⟨rfl, rfl⟩ := Prod.mk.inj (List.mem_singleton.1 hf)
      rw [store_next, Function.update_self]
      exact ⟨present_or _ _ (by decide), pteAddr_or hr (by decide)⟩
  · rw [List.map_append, List.mem_append, not_or] at hnoti
    have hij : i ≠ j := fun he => hnoti.2 (he ▸ List.mem_singleton_self _)
    rw [newTable_next hd hr hd hne hj hi fun _ => hij]
    exact h.absent i hi hnoti.1
  · rw [List.map_append] at hi
    rcases List.mem_append.1 hi with hi | hi
    · exact h.lt i hi
    · exact List.mem_singleton.1 hi ▸ hj

end Entries

/-- A page directory at `d` with the page tables `T`, index and frame, and the mapped pages `M`. -/
structure Directory (s : Kmem) (d : ℕ) (T : List (ℕ × ℕ)) (M : Set ℕ) : Prop where
  allocated : ∀ v ∈ d :: T.map Prod.snd, v ∈ s.allocated
  nodup : (d :: T.map Prod.snd).Nodup
  keys_nodup : (T.map Prod.fst).Nodup
  covers : ∀ p ∈ M, p / 1024 ∈ T.map Prod.fst
  lt : ∀ j ∈ T.map Prod.fst, j < 1024
  pde : ∀ j f, (j, f) ∈ T → Present (s.next (d + 4 * j)) ∧ pteAddr (s.next (d + 4 * j)) = f
  absent : ∀ j < 1024, j ∉ T.map Prod.fst → ¬Present (s.next (d + 4 * j))
  pte : ∀ j f, (j, f) ∈ T → ∀ t < 1024, Present (s.next (f + 4 * t)) ↔ 1024 * j + t ∈ M

section Directory

variable {end_ : ℕ} {frames : List ℕ} {s t : Kmem} {d f j p : ℕ} {T : List (ℕ × ℕ)} {M : Set ℕ}

/-- The page number of an address. -/
def page (a : ℕ) : ℕ := a / pgsize

theorem pdx_eq {a : ℕ} (ha : a < pointers) : pdx a = page a / 1024 := by
  unfold pdx page pgsize pointers at *
  omega

theorem ptx_eq (a : ℕ) : ptx a = page a % 1024 := by
  unfold ptx page pgsize
  omega

theorem page_pgsize_mul (p : ℕ) : page (pgsize * p) = p := by
  unfold page pgsize
  omega

/-- A user page lies below the pointers' bound. -/
theorem user_lt_pointers (hp : p < 160) : pgsize * p < pointers := by
  unfold pgsize pointers
  omega

theorem pointer_ne_zero (hF : Frames end_ frames) (h : Conserved frames s) {v : ℕ}
    (hv : v ∈ s.allocated) : v ≠ 0 := hF.ne_zero v (mem_frames h hv)

theorem Directory.entries (hD : Directory s d T M) : Entries s d T :=
  ⟨hD.keys_nodup, hD.pde, hD.absent, hD.lt⟩

namespace Directory

theorem table_allocated (hD : Directory s d T M) (hf : (j, f) ∈ T) : f ∈ s.allocated :=
  hD.allocated f (List.mem_cons_of_mem _ (List.mem_map_of_mem hf))

theorem table_ne (hD : Directory s d T M) (hf : (j, f) ∈ T) : f ≠ d := by
  rintro rfl
  exact (List.nodup_cons.1 hD.nodup).1 (List.mem_map_of_mem hf)

/-- A frame belongs to one table. -/
theorem table_inj {j' : ℕ} (hD : Directory s d T M) (hf : (j, f) ∈ T) (hf' : (j', f) ∈ T) :
    j = j' := by
  have hinj := List.inj_on_of_nodup_map (List.nodup_cons.1 hD.nodup).2 hf hf' rfl
  exact congrArg Prod.fst hinj

/-- `walkpgdir` finds the entry of a page whose table exists. -/
theorem walk (hD : Directory s d T M) {a : ℕ} (ha : a < pointers) (hf : (page a / 1024, f) ∈ T)
    (kalloc : Kmem → Except Fault (ℕ × Kmem)) (create : Bool) :
    walkpgdir kalloc d a create s = .ok (f + 4 * (page a % 1024), s) := by
  obtain ⟨hpresent, haddr⟩ := hD.pde _ _ hf
  rw [walkpgdir, pdx_eq ha, if_pos hpresent, haddr, ptx_eq]
  rfl

/-- Writing an entry with the present bit maps its page. -/
theorem store_pte (hF : Frames end_ frames) (hC : Conserved frames s) (hD : Directory s d T M)
    (hf : (p / 1024, f) ∈ T) {w : ℕ} (hw : Present w) :
    Directory (store (f + 4 * (p % 1024)) w s) d T (insert p M) := by
  have hal : ∀ v ∈ d :: T.map Prod.snd, v % pgsize = 0 := fun v hv =>
    aligned hF hC (hD.allocated v hv)
  have hfd := hD.table_ne hf
  have hfal := aligned hF hC (hD.table_allocated hf)
  have hpde : ∀ i < 1024,
      (store (f + 4 * (p % 1024)) w s).next (d + 4 * i) = s.next (d + 4 * i) := by
    intro i hi
    refine Function.update_of_ne (fun h => ?_) _ _
    exact hfd (word_inj (hal d List.mem_cons_self) hfal hi (by omega) h).1.symm
  refine ⟨hD.allocated, hD.nodup, hD.keys_nodup, ?_, hD.lt, fun j g hg => ?_,
    fun j hj hnot => ?_, fun j g hg t ht => ?_⟩
  · rintro q (rfl | hq)
    · exact List.mem_map_of_mem hf
    · exact hD.covers q hq
  · rw [hpde j (hD.lt j (List.mem_map_of_mem hg))]
    exact hD.pde j g hg
  · rw [hpde j hj]
    exact hD.absent j hj hnot
  · by_cases he : g + 4 * t = f + 4 * (p % 1024)
    · obtain ⟨rfl, rfl⟩ := word_inj (aligned hF hC (hD.table_allocated hg)) hfal ht (by omega) he
      have hj := hD.table_inj hg hf
      rw [he, store_next, Function.update_self, hj, Nat.div_add_mod]
      exact iff_of_true hw (.inl rfl)
    · rw [store_next, Function.update_of_ne he, hD.pte j g hg t ht]
      refine (or_iff_right fun hp => he ?_).symm
      -- The entry of another page would be this one.
      have hj : j = p / 1024 := by omega
      have ht' : t = p % 1024 := by omega
      have hfj : (j, f) ∈ T := hj ▸ hf
      have hpair : (j, g) = (j, f) := List.inj_on_of_nodup_map hD.keys_nodup hg hfj rfl
      rw [(Prod.mk.inj hpair).2, ht']

/-- The empty directory. -/
theorem empty (hd : d ∈ s.allocated) :
    Directory (clear d s) d [] ∅ where
  allocated := by simpa using hd
  nodup := List.nodup_singleton d
  keys_nodup := List.nodup_nil
  covers _ hp := hp.elim
  lt _ hj := (List.not_mem_nil hj).elim
  pde _ _ hf := (List.not_mem_nil hf).elim
  absent j hj _ := by
    rw [clear_next_self hj]
    exact not_present_zero
  pte _ _ hf := (List.not_mem_nil hf).elim

/-- A new page table in the frame `r`. -/
theorem new_table (hF : Frames end_ frames) (hC : Conserved frames s) (hD : Directory s d T M)
    (hj : j < 1024) (hnot : j ∉ T.map Prod.fst) {r : ℕ} {u : Kmem} (hr : r ∉ s.allocated)
    (hu : Conserved frames u) (hal : u.allocated = s.allocated ++ [r]) (hnext : u.next = s.next) :
    Directory (store (d + 4 * j) (r ||| pteP ||| pteW ||| pteU) (clear r u)) d (T ++ [(j, r)])
      M := by
  have hrT : r ∉ d :: T.map Prod.snd := fun h => hr (hD.allocated r h)
  have hru : r ∈ u.allocated := by simp [hal]
  have hrmod := aligned hF hu hru
  have hd := aligned hF hC (hD.allocated d List.mem_cons_self)
  have hrd : r ≠ d := fun h => hrT (h ▸ List.mem_cons_self)
  have hE := (hD.entries.congr (t := u) fun i _ => by rw [hnext]).new_table hd hrmod hrd hj hnot
  refine ⟨?_, ?_, hE.keys_nodup, fun p hp => ?_, hE.lt, hE.pde, hE.absent, ?_⟩
  · intro v hv
    rw [List.map_append, ← List.cons_append, List.mem_append] at hv
    rw [store_allocated, clear_allocated, hal, List.mem_append]
    exact hv.imp (hD.allocated v) id
  · rw [List.map_append, ← List.cons_append]
    exact List.nodup_append'.2 ⟨hD.nodup, List.nodup_singleton r, by simpa using hrT⟩
  · rw [List.map_append]
    exact List.mem_append_left _ (hD.covers p hp)
  · intro i f hf t ht
    rcases List.mem_append.1 hf with hf | hf
    · have hrf : r ≠ f := fun h => hrT (h ▸ List.mem_cons_of_mem _ (List.mem_map_of_mem hf))
      rw [newTable_next hd hrmod (aligned hF hC (hD.table_allocated hf)) hrf hj ht
        (fun h => absurd h (hD.table_ne hf)), hnext]
      exact hD.pte i f hf t ht
    · obtain ⟨rfl, rfl⟩ := Prod.mk.inj (List.mem_singleton.1 hf)
      have hne : f + 4 * t ≠ d + 4 * i := fun h => hrd (word_inj hrmod hd ht hj h).1
      rw [store_next, Function.update_of_ne hne, clear_next_self ht]
      refine iff_of_false not_present_zero fun hM => hnot ?_
      have hkey := hD.covers _ hM
      rwa [Nat.mul_add_div (by decide), Nat.div_eq_of_lt ht, Nat.add_zero] at hkey

/-- `walkpgdir` on a page without a table. -/
theorem walk_absent (hD : Directory s d T M) {a : ℕ} (ha : a < pointers)
    (hnot : page a / 1024 ∉ T.map Prod.fst) (kalloc : Kmem → Except Fault (ℕ × Kmem)) :
    walkpgdir kalloc d a true s = (do
      let (pgtab, s) ← kalloc s
      if pgtab = 0 then pure (0, s)
      else pure (pgtab + 4 * (page a % 1024),
        store (d + 4 * (page a / 1024)) (pgtab ||| pteP ||| pteW ||| pteU) (clear pgtab s))) := by
  have hlt : page a / 1024 < 1024 := by
    unfold page pgsize pointers at *
    omega
  rw [walkpgdir, pdx_eq ha, if_neg (hD.absent _ hlt hnot), if_pos rfl, ptx_eq]

/-- Mapping an entry in a table that exists. -/
theorem map_entry (hF : Frames end_ frames) (hC : Conserved frames s) (hD : Directory s d T M)
    (hf : (p / 1024, f) ∈ T) (hp : p ∉ M) (w : ℕ) :
    ¬Present (s.next (f + 4 * (p % 1024))) ∧
      Conserved frames (store (f + 4 * (p % 1024)) (w ||| pteP) s) ∧
      Directory (store (f + 4 * (p % 1024)) (w ||| pteP) s) d T (insert p M) := by
  have hlt : p % 1024 < 1024 := Nat.mod_lt _ (by decide)
  refine ⟨?_, ?_, hD.store_pte hF hC hf ?_⟩
  · rw [hD.pte _ _ hf _ hlt, Nat.div_add_mod]
    exact hp
  · refine conserved_store hF hC (hD.table_allocated hf) ⟨Nat.le_add_right _ _, ?_⟩
    unfold pgsize
    omega
  · exact present_or _ _ (by decide)

end Directory

/-- The pages of a list of mappings. -/
def pages (ms : List Mapping) : List ℕ := ms.map fun m => page m.a

/-- **Mapping pages.**  Either all of them are mapped, or the frames are used up before the last
page table; the frames taken are the new tables'. -/
theorem mapLoop_spec (hF : Frames end_ frames) {ms : List Mapping} (hC : Conserved frames s)
    (hD : Directory s d T M) (hlt : ∀ m ∈ ms, m.a < pointers) (hnd : (pages ms).Nodup)
    (hdis : ∀ p ∈ pages ms, p ∉ M) :
    ∃ r t new, mapLoop PartA.kalloc d ms s = .ok (r, t) ∧ Conserved frames t ∧
      t.allocated = s.allocated ++ new.map Prod.snd ∧
      ((T ++ new).map Prod.fst).Nodup ∧ (∀ j ∈ new.map Prod.fst, ∃ p ∈ pages ms, p / 1024 = j) ∧
      (r = true → Directory t d (T ++ new) (M ∪ {p | p ∈ pages ms})) ∧
      (r = false → t.allocated.length = frames.length ∧
        ∃ p ∈ pages ms, p / 1024 ∉ (T ++ new).map Prod.fst) := by
  induction ms generalizing s T M with
  | nil =>
    refine ⟨true, s, [], rfl, hC, by simp, by simpa using hD.keys_nodup, by simp, fun _ => ?_,
      by simp⟩
    simpa [pages] using hD
  | cons m ms ih =>
    rw [List.forall_mem_cons] at hlt
    rw [pages, List.map_cons, ← pages] at hnd hdis
    rw [List.forall_mem_cons] at hdis
    obtain ⟨hm, hnd⟩ := List.nodup_cons.1 hnd
    -- The rest of the pages, once this one is mapped.
    have hrest : ∀ {s' : Kmem} {T' : List (ℕ × ℕ)} {f : ℕ}, Conserved frames s' →
        Directory s' d T' M → (page m.a / 1024, f) ∈ T' →
        ∃ u, (if Present (s'.next (f + 4 * (page m.a % 1024))) then throw (.panic "remap")
            else mapLoop PartA.kalloc d ms
              (store (f + 4 * (page m.a % 1024)) (m.pa ||| m.perm ||| pteP) s')) =
          mapLoop PartA.kalloc d ms u ∧ u.allocated = s'.allocated ∧ Conserved frames u ∧
          Directory u d T' (insert (page m.a) M) := by
      intro s' T' f hC' hD' hf
      obtain ⟨hnot, hCu, hDu⟩ := hD'.map_entry hF hC' hf hdis.1 (m.pa ||| m.perm)
      exact ⟨_, if_neg hnot, rfl, hCu, hDu⟩
    have hdis' : ∀ p ∈ pages ms, p ∉ insert (page m.a) M := by
      rintro p hp (rfl | hM)
      · exact hm hp
      · exact hdis.2 p hp hM
    have hunion : insert (page m.a) M ∪ {p | p ∈ pages ms} =
        M ∪ {p | p ∈ page m.a :: pages ms} := by
      ext p
      simp only [Set.mem_union, Set.mem_insert_iff, Set.mem_ofPred_eq, List.mem_cons]
      tauto
    rw [pages, List.map_cons, ← pages, mapLoop]
    by_cases hkey : page m.a / 1024 ∈ T.map Prod.fst
    · obtain ⟨⟨j, f⟩, hf, rfl : j = page m.a / 1024⟩ := List.mem_map.1 hkey
      rw [hD.walk hlt.1 hf, ok_bind]
      have hpte : f + 4 * (page m.a % 1024) ≠ 0 := by
        have := pointer_ne_zero hF hC (hD.table_allocated hf)
        omega
      simp only [if_neg hpte]
      obtain ⟨u, hu, hal, hCu, hDu⟩ := hrest hC hD hf
      rw [hu]
      obtain ⟨r, t, new, h1, h2, h3, h4, h5, h6, h7⟩ := ih hCu hDu hlt.2 hnd hdis'
      refine ⟨r, t, new, h1, h2, h3.trans (by rw [hal]), h4, fun j hj => ?_, fun hr => ?_,
        fun hr => ?_⟩
      · obtain ⟨p, hp, hpj⟩ := h5 j hj
        exact ⟨p, List.mem_cons_of_mem _ hp, hpj⟩
      · exact hunion ▸ h6 hr
      · obtain ⟨hfull, p, hp, hpnot⟩ := h7 hr
        exact ⟨hfull, p, List.mem_cons_of_mem _ hp, hpnot⟩
    · rw [hD.walk_absent hlt.1 hkey]
      rcases Nat.lt_or_ge s.allocated.length frames.length with hfree | hfull
      · obtain ⟨g, s₁, hk, hg0, hg, hC₁, hal₁, hnext⟩ := kalloc_some hF hC hfree
        have hj : page m.a / 1024 < 1024 := by
          have := hlt.1
          unfold page pgsize pointers at *
          omega
        have hD₂ := hD.new_table hF hC hj hkey hg hC₁ hal₁ hnext
        have hd₁ : d ∈ s₁.allocated := by
          rw [hal₁]
          exact List.mem_append_left _ (hD.allocated d List.mem_cons_self)
        have hg₁ : g ∈ s₁.allocated := by simp [hal₁]
        have hC₂ := conserved_store hF (conserved_clear hF hC₁ hg₁) hd₁
          (w := g ||| pteP ||| pteW ||| pteU)
          (a := d + 4 * (page m.a / 1024)) ⟨Nat.le_add_right _ _, by unfold pgsize; omega⟩
        have hf : (page m.a / 1024, g) ∈ T ++ [(page m.a / 1024, g)] := by simp
        have hpte : g + 4 * (page m.a % 1024) ≠ 0 := by omega
        simp only [hk, ok_bind, if_neg hg0, pure, Except.pure, if_neg hpte]
        obtain ⟨u, hu, hal, hCu, hDu⟩ := hrest hC₂ hD₂ hf
        rw [hu]
        obtain ⟨r, t, new, h1, h2, h3, h4, h5, h6, h7⟩ := ih hCu hDu hlt.2 hnd hdis'
        rw [List.append_assoc, List.singleton_append] at h4 h6 h7
        refine ⟨r, t, _ :: new, h1, h2, ?_, h4, fun j hj => ?_, fun hr => ?_, fun hr => ?_⟩
        · rw [h3, hal, store_allocated, clear_allocated, hal₁, List.append_assoc]
          rfl
        · rcases List.mem_cons.1 hj with rfl | hj
          · exact ⟨page m.a, List.mem_cons_self, rfl⟩
          · obtain ⟨p, hp, hpj⟩ := h5 j hj
            exact ⟨p, List.mem_cons_of_mem _ hp, hpj⟩
        · exact hunion ▸ h6 hr
        · obtain ⟨hfull, p, hp, hpnot⟩ := h7 hr
          exact ⟨hfull, p, List.mem_cons_of_mem _ hp, hpnot⟩
      · have hfull := (allocated_length_le hC).antisymm hfull
        rw [kalloc_none hC hfull]
        refine ⟨false, s, [], rfl, hC, by simp, by simpa using hD.keys_nodup, by simp, by simp,
          fun _ => ⟨hfull, page m.a, List.mem_cons_self, by simpa using hkey⟩⟩

end Directory

end OsProjects.Vm
