import OsProjects.Vm.Evolution
import OsProjects.Vm.Protection

/-!
# mprotect and munprotect on page tables

The two loops as `kernel/vm.c` has them, with `walkpgdir` at every page.  On an address space
`walkpgdir` never fails, because all pages below `USERTOP` share a page table that exists; the loops
then do to the entries of the user pages what the calls of user memory do to theirs
(`protect_refines`).
-/

namespace OsProjects.Vm

open Alloc (Fault Kmem pgsize pointers Conserved Frames frameMemory)
open User (regionEnd region Writable)

section Model

variable (kalloc : Kmem → Except Fault (ℕ × Kmem))

/-- The loop of `mprotect` and `munprotect`, `false` where there is no entry. -/
def protectLoop (f : ℕ → ℕ) (pgdir : ℕ) : List ℕ → Kmem → Except Fault (Bool × Kmem)
  | [], s => pure (true, s)
  | i :: is, s => do
    let (pte, s) ← walkpgdir kalloc pgdir i false s
    if pte ≠ 0 then protectLoop f pgdir is (store pte (f (s.next pte)) s)
    else pure (false, s)

/-- `mprotect` and `munprotect`, with what they do to an entry. -/
def protect (f : ℕ → ℕ) (pgdir addr : ℕ) (len : ℤ) (s : Kmem) : Except Fault (ℤ × Kmem) :=
  if addr % pgsize ≠ 0 ∨ usertop < regionEnd addr len ∨ len ≤ 0 then pure (-1, s)
  else do
    let pages := (regionEnd addr len - addr + (pgsize - 1)) / pgsize
    let (ok, s) ← protectLoop kalloc f pgdir
      ((List.range pages).map fun i => addr + pgsize * i) s
    pure (if ok then 0 else -1, s)

/-- `*pte = *pte & ~PTE_W;` -/
def mprotect : ℕ → ℕ → ℤ → Kmem → Except Fault (ℤ × Kmem) :=
  protect kalloc fun pte => pte ^^^ (pte &&& pteW)

/-- `*pte = *pte | PTE_W;` -/
def munprotect : ℕ → ℕ → ℤ → Kmem → Except Fault (ℤ × Kmem) :=
  protect kalloc fun pte => pte ||| pteW

end Model

/-- The address of the entry of page `p`. -/
def entryAddr (s : Kmem) (pgdir p : ℕ) : ℕ :=
  pteAddr (s.next (pgdir + 4 * (p / 1024))) + 4 * (p % 1024)

variable {kalloc : Kmem → Except Fault (ℕ × Kmem)} {end_ : ℕ} {frames : List ℕ} {s : Kmem}
  {A : Space} {f : ℕ → ℕ} {tab addr p q : ℕ} {len : ℤ} {ps : List ℕ}

/-- A change of an entry that keeps its frame and its present bit. -/
def KeepsFrame (f : ℕ → ℕ) : Prop :=
  ∀ pte, (Present (f pte) ↔ Present pte) ∧ pteAddr (f pte) = pteAddr pte

theorem keepsFrame_clear : KeepsFrame fun pte => pte ^^^ (pte &&& pteW) := fun pte =>
  ⟨(User.clear_spec pte).1, (User.clear_spec pte).2.1⟩

theorem keepsFrame_set : KeepsFrame fun pte => pte ||| pteW := User.set_spec

/-- The pages of the loop. -/
theorem region_addresses (haddr : addr % pgsize = 0) :
    ((List.range ((regionEnd addr len - addr + (pgsize - 1)) / pgsize)).map fun i =>
      addr + pgsize * i) = (region addr len).map (pgsize * ·) := by
  rw [region, List.range'_eq_map_range, List.map_map]
  refine List.map_congr_left fun i _ => ?_
  show addr + pgsize * i = pgsize * (User.page addr + i)
  unfold User.page pgsize at *
  omega

theorem region_lt (haddr : addr % pgsize = 0) (hend : regionEnd addr len ≤ usertop)
    (hp : p ∈ region addr len) : p < 160 := by
  rw [region, List.mem_range'_1] at hp
  unfold User.page pgsize usertop at *
  omega

variable (kalloc) in
/-- The loop changes the entries of its pages, and nothing else. -/
theorem protectLoop_spec (hF : Frames end_ frames) (hf : KeepsFrame f) (hps : ∀ p ∈ ps, p < 160)
    (hnd : ps.Nodup) (hC : Conserved frames s) (h : A.Holds s) (htab : (0, tab) ∈ A.tables) :
    ∃ t, protectLoop kalloc f A.dir (ps.map (pgsize * ·)) s = .ok (true, t) ∧
      Evolves frames s A t A ∧
      (∀ p < npages, lookup t A.dir p =
        if p ∈ ps then f (lookup s A.dir p) else lookup s A.dir p) ∧
      ∀ a, (∀ p ∈ ps, a ≠ tab + 4 * p) → t.next a = s.next a := by
  induction ps generalizing s with
  | nil => exact ⟨s, rfl, .refl hC h, by simp, by simp⟩
  | cons p ps ih =>
    obtain ⟨hp, hps⟩ := List.forall_mem_cons.1 hps
    obtain ⟨hpnot, hnd⟩ := List.nodup_cons.1 hnd
    have hentry := h.paging.lookup_user htab hp
    rw [List.map_cons, protectLoop, h.paging.walk_user htab hp, ok_bind]
    dsimp only
    rw [if_pos (h.paging.pte_ne_zero htab hF hC p)]
    -- The page keeps its frame.
    have hok : EntryOk (fun _ => A.user p) p (f (s.next (tab + 4 * p))) := by
      have hold := h.entries p (by unfold npages; omega)
      rw [EntryOk, if_pos hp, hentry] at hold
      rw [EntryOk, if_pos hp]
      cases hu : A.user p with
      | none =>
        rw [hu] at hold
        exact fun hpr => hold ((hf _).1.1 hpr)
      | some v =>
        rw [hu] at hold
        exact ⟨(hf _).1.2 hold.1, (hf _).2.trans hold.2⟩
    have hstored := h.store_user hF hC htab hp (fun v hv => ⟨h.user_mem p v hv, h.apart p v hv,
      fun q hq => h.inj q p v hq hv⟩) hok
    have hsame : A.setUser p (A.user p) = A := by
      rw [Space.setUser, Function.update_eq_self]
    rw [hsame] at hstored
    obtain ⟨hC₁, hc₁⟩ := store_confined hF hC h.frames_subset (Space.Holds.table_mem_frames htab)
      (i := p) (by omega) (f (s.next (tab + 4 * p)))
    have hfirst := (h.paging.store_user_entry htab hF hC hp (f (s.next (tab + 4 * p)))).2
    obtain ⟨t, hloop, hev, hlookup, hrest⟩ := ih hps hnd hC₁ hstored
    refine ⟨t, hloop, Evolves.trans ⟨hC₁, hstored, hc₁, rfl, id⟩ hev, fun q hq => ?_,
      fun a ha => ?_⟩
    · rw [hlookup q hq, hfirst q hq]
      rcases eq_or_ne q p with rfl | hne
      · rw [Function.update_self, if_neg hpnot, if_pos List.mem_cons_self, hentry]
      · rw [Function.update_of_ne hne]
        simp [hne]
    · rw [hrest a fun q hq => ha q (List.mem_cons_of_mem _ hq), store_next,
        Function.update_of_ne (ha p List.mem_cons_self)]

variable (kalloc) in
/-- **`mprotect` and `munprotect`** on an address space. -/
theorem protect_spec (hF : Frames end_ frames) (hf : KeepsFrame f) (hC : Conserved frames s)
    (h : A.Holds s) (hA : A.Ready) (addr : ℕ) (len : ℤ) :
    (addr % pgsize ≠ 0 ∨ usertop < regionEnd addr len ∨ len ≤ 0 →
      protect kalloc f A.dir addr len s = .ok (-1, s)) ∧
    (¬(addr % pgsize ≠ 0 ∨ usertop < regionEnd addr len ∨ len ≤ 0) →
      ∃ t, protect kalloc f A.dir addr len s = .ok (0, t) ∧ Evolves frames s A t A ∧
        (∀ p < npages, lookup t A.dir p =
          if p ∈ region addr len then f (lookup s A.dir p) else lookup s A.dir p) ∧
        ∀ a, (∀ p ∈ region addr len, a ≠ entryAddr s A.dir p) → t.next a = s.next a) := by
  refine ⟨fun hbad => if_pos hbad, fun hgood => ?_⟩
  have haddr : addr % pgsize = 0 := by omega
  have hend : regionEnd addr len ≤ usertop := by omega
  obtain ⟨tab, htab⟩ := hA
  have hlt := fun p => region_lt (p := p) haddr hend
  obtain ⟨t, hloop, hev, hlookup, hrest⟩ := protectLoop_spec kalloc hF hf hlt
    List.nodup_range' hC h htab
  refine ⟨t, ?_, hev, hlookup, fun a ha => hrest a fun p hp => ?_⟩
  · rw [protect, if_neg hgood]
    dsimp only
    rw [region_addresses haddr, hloop]
    rfl
  · have hp160 := hlt p hp
    have hentry : entryAddr s A.dir p = tab + 4 * p := by
      rw [entryAddr, Nat.div_eq_of_lt (by omega), Nat.mod_eq_of_lt (by omega),
        (h.paging.entries.pde 0 tab htab).2]
    exact hentry ▸ ha p hp

variable (kalloc) in
/-- What the two calls do to the page table of user memory. -/
theorem protect_refines (hF : Frames end_ frames) (hf : KeepsFrame f) (hC : Conserved frames s)
    (h : A.Holds s) (hA : A.Ready) (addr : ℕ) (len : ℤ) {m : User.Memory}
    (hm : m.pte = userTable s A.dir) :
    ∃ t, protect kalloc f A.dir addr len s = .ok ((User.protectLoop f addr len m).1, t) ∧
      Evolves frames s A t A ∧ (User.protectLoop f addr len m).2.pte = userTable t A.dir := by
  obtain ⟨hbad, hgood⟩ := protect_spec kalloc hF hf hC h hA addr len
  by_cases hc : addr % pgsize ≠ 0 ∨ usertop < regionEnd addr len ∨ len ≤ 0
  · refine ⟨s, ?_, .refl hC h, ?_⟩
    · rw [hbad hc, User.protectLoop, if_pos hc]
    · rw [User.protectLoop, if_pos hc]
      exact hm
  · obtain ⟨t, hret, hev, hlookup, -⟩ := hgood hc
    have hzero : (User.protectLoop f addr len m).1 = 0 := by rw [User.protectLoop, if_neg hc]
    refine ⟨t, by rw [hret, hzero], hev, funext fun p => ?_⟩
    rw [User.protectLoop_pte, hzero, hm, userTable, userTable]
    by_cases hp : p < 160
    · rw [if_pos hp, if_pos hp, hlookup p (by unfold npages; omega)]
      simp
    · have hnot : p ∉ region addr len := fun hmem => hp (region_lt (by omega) (by omega) hmem)
      rw [if_neg hp, if_neg hp, if_neg fun hand => hnot hand.2]

end OsProjects.Vm
