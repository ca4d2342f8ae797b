import OsProjects.Vm.Isolation

/-!
# The outcomes of mprotect and munprotect

What the two calls do to a page directory that the kernel has built.  The `return -1` in the middle
of their loops is never taken, so that a call that fails has changed nothing (`failed_unchanged`).
A call that succeeds has protected its pages exactly if the end of the region does not wrap around
and all of its pages are mapped: a page that is not mapped has an entry too (`protects_iff`).
-/

namespace OsProjects.Vm

open Alloc (Fault Kmem Part partA partB pgsize pointers kinit managedFrames Conserved Frames
  frameMemory PartA.kalloc)
open User (UserPage Writable regionEnd region writable_iff testBit_pteW mem_region)

variable {P : Part} {data end_ : ℕ} {st : State} {d addr p : ℕ} {len : ℤ} {f : ℕ → ℕ}

/-- `mprotect` and `munprotect` on a page directory of the kernel. -/
theorem protect_reached (hP : P = partA ∨ P = partB) (hL : Layout data)
    (hr : Reached P data end_ st) (hd : d ∈ st.pgdirs) (hf : KeepsFrame f) (addr : ℕ) (len : ℤ) :
    (addr % pgsize ≠ 0 ∨ usertop < regionEnd addr len ∨ len ≤ 0 →
      protect P.kalloc f d addr len st.kmem = .ok (-1, st.kmem)) ∧
    (¬(addr % pgsize ≠ 0 ∨ usertop < regionEnd addr len ∨ len ≤ 0) →
      ∃ t, protect P.kalloc f d addr len st.kmem = .ok (0, t) ∧
        (∀ p < npages, lookup t d p =
          if p ∈ region addr len then f (lookup st.kmem d p) else lookup st.kmem d p) ∧
        ∀ a, (∀ p ∈ region addr len, a ≠ entryAddr st.kmem d p) →
          t.next a = st.kmem.next a) := by
  obtain ⟨hF, G, hI⟩ := isolated_reached hP hL hr
  obtain ⟨A, hA⟩ := (hI.live d).1 hd
  obtain ⟨rfl, hready, hholds⟩ := hI.space d A hA
  obtain ⟨hbad, hgood⟩ := protect_spec P.kalloc hF hf hI.conserved hholds hready addr len
  refine ⟨hbad, fun hc => ?_⟩
  obtain ⟨t, ht, -, hlookup, hwords⟩ := hgood hc
  exact ⟨t, ht, hlookup, hwords⟩

/-- A call that returns `-1` has stopped at its first check. -/
theorem protect_failed (hP : P = partA ∨ P = partB) (hL : Layout data)
    (hr : Reached P data end_ st) (hd : d ∈ st.pgdirs) (hf : KeepsFrame f) {s : Kmem}
    (hk : protect P.kalloc f d addr len st.kmem = .ok (-1, s)) : s = st.kmem := by
  obtain ⟨hbad, hgood⟩ := protect_reached hP hL hr hd hf addr len
  by_cases hc : addr % pgsize ≠ 0 ∨ usertop < regionEnd addr len ∨ len ≤ 0
  · exact (Prod.mk.inj (Except.ok.inj (hk.symm.trans (hbad hc)))).2
  · obtain ⟨t, ht, -⟩ := hgood hc
    have hret := (Prod.mk.inj (Except.ok.inj (hk.symm.trans ht))).1
    cases hret

/-! ### A process of one page -/

/-- `allocuvm` of the first page. -/
theorem allocuvm_first {frames : List ℕ} {s : Kmem} {A : Space} (hF : Frames end_ frames)
    (hC : Conserved frames s) (h : A.Holds s) (hA : A.Ready) (hnone : A.user = fun _ => none)
    (hn : s.allocated.length < frames.length) :
    ∃ t, allocuvm PartA.kalloc end_ A.dir 0 pgsize s = .ok (pgsize, t) ∧
      Present (lookup t A.dir 0) ∧ UserPage (lookup t A.dir 0) ∧ ¬Present (lookup t A.dir 1) ∧
      t.allocated.length = s.allocated.length + 1 := by
  obtain ⟨tab, htab⟩ := hA
  obtain ⟨r, s₁, hk, hr0, -, -, hal, -⟩ := kalloc_some hF hC hn
  have hfill : ∀ a, ¬(r ≤ a ∧ a < r + pgsize) → (clear r s₁).next a = s₁.next a :=
    fun a ha => if_neg ha
  have habsent : ∀ p < 160, ¬Present (lookup s A.dir p) := fun p hp => by
    rw [h.present_iff hp, hnone]
    exact nofun
  obtain ⟨t, hmap, halt⟩ : ∃ t, mappages PartA.kalloc A.dir (pgsize * 0) pgsize r (pteW ||| pteU)
      (clear r s₁) = .ok (true, t) ∧ t.allocated = s₁.allocated := by
    have hmap := mappages_frame (.inl rfl) hF hC h htab (p := 0) (by decide) hk hr0 _ hfill
      (pteW ||| pteU)
    rw [if_neg (habsent 0 (by decide))] at hmap
    exact ⟨_, hmap, rfl⟩
  obtain ⟨-, -, -, hlookup, -⟩ := mapFrame (.inl rfl) hF hC h htab (by decide) hk hr0 _ hfill
    (by decide) hmap
  have hentry : lookup t A.dir 0 = r ||| (pteW ||| pteU ||| pteP) := by
    rw [hlookup 0 (by decide), Function.update_self, Nat.or_assoc]
  refine ⟨t, ?_, ?_, ?_, ?_, ?_⟩
  · rw [allocuvm, if_neg (by decide), if_neg (by decide),
      show pagesBetween 0 pgsize = [pgsize * 0] from rfl, allocLoop, hk, ok_bind]
    dsimp only
    rw [if_neg hr0, hmap]
    rfl
  · rw [hentry]
    exact present_or _ _ (by decide)
  · rw [hentry, userPage_iff, Nat.testBit_or, Bool.or_eq_true]
    exact .inr (by decide)
  · rw [hlookup 1 (by decide), Function.update_of_ne one_ne_zero]
    exact habsent 1 (by decide)
  · rw [halt, hal, List.length_append, List.length_singleton]

/-- A process of one page, with frames for another one. -/
theorem onePage : ∃ st d, Reached partA 0x101000 0xFC0001 st ∧ d ∈ st.pgdirs ∧
    Present (lookup st.kmem d 0) ∧ UserPage (lookup st.kmem d 0) ∧ ¬Present (lookup st.kmem d 1) ∧
    st.kmem.allocated.length + 14 ≤ (managedFrames 0xFC0001 partA.stride).length := by
  have hL : Layout 0x101000 := ⟨by decide, by decide, by decide⟩
  have hpos : 0 < partA.stride := by decide
  have hlen : (managedFrames 0xFC0001 partA.stride).length = 32 := by decide
  obtain ⟨s₀, hk⟩ : ∃ s₀, kinit 0xFC0001 partA.stride (Kmem.boot fun _ => 0) = .ok s₀ := ⟨_, rfl⟩
  have hF := Alloc.frames_of_kinit hpos hk
  obtain ⟨hC, hnil, -⟩ := Alloc.kinit_conserved hpos hk
  generalize managedFrames 0xFC0001 partA.stride = frames at hF hC hlen ⊢
  obtain ⟨d, s₁, hsetup, hC₁, hcase⟩ := setupkvm_spec hL hF hC
  have hnone : s₀.allocated.length = 0 := by rw [hnil]; rfl
  obtain ⟨-, hfull, -⟩ | ⟨-, -, hfew, -⟩ | ⟨hd0, -, T, -, hal, hT⟩ := hcase
  · omega
  · omega
  obtain ⟨-, -, hnew⟩ := setupkvm_evolves (.inl rfl) hF hL hC hsetup
  obtain ⟨T', hA, hready, -⟩ := hnew hd0
  have hlen₁ : s₁.allocated.length = 13 := by
    rw [hal, List.length_append, List.length_cons, List.length_map]
    omega
  obtain ⟨s₂, halloc, hpresent, huser, habsent, hlen₂⟩ := allocuvm_first hF hC₁ hA hready rfl
    (by omega)
  have hboot : Boot partA 0xFC0001 ⟨s₀, [], []⟩ := ⟨_, hk, rfl, rfl⟩
  have hdirs : d ∈ newDir d [] := by
    rw [newDir, if_neg hd0]
    exact List.mem_cons_self
  have hrun : Run (Step partA 0x101000 0xFC0001) ⟨s₀, [], []⟩ [.setupkvm, .allocuvm d 0 pgsize]
      ⟨s₂, newDir d [], []⟩ :=
    .cons ⟨d, s₁, hsetup, rfl⟩ (Run.single_iff.2 ⟨hdirs, pgsize, s₂, halloc, rfl⟩)
  refine ⟨⟨s₂, newDir d [], []⟩, d, ⟨_, _, hboot, hrun⟩, hdirs, hpresent, huser, habsent, ?_⟩
  show s₂.allocated.length + 14 ≤ frames.length
  omega

/-! ### Failure -/

/-- **A failed `mprotect` or `munprotect` changes nothing**. -/
theorem failed_unchanged (hP : P = partA ∨ P = partB) (hL : Layout data)
    (hr : Reached P data end_ st) (hd : d ∈ st.pgdirs) (addr : ℕ) (len : ℤ) :
    (∀ s, mprotect P.kalloc d addr len st.kmem = .ok (-1, s) → s = st.kmem) ∧
      ∀ s, munprotect P.kalloc d addr len st.kmem = .ok (-1, s) → s = st.kmem :=
  ⟨fun _ hk => protect_failed hP hL hr hd keepsFrame_clear hk,
    fun _ hk => protect_failed hP hL hr hd keepsFrame_set hk⟩

/-- A region of 161 pages ends above `USERTOP`. -/
theorem failed_unchanged_onePage : ∃ st d, Reached partA 0x101000 0xFC0001 st ∧ d ∈ st.pgdirs ∧
    Present (lookup st.kmem d 0) ∧ ∃ s,
      mprotect partA.kalloc d 0 161 st.kmem = .ok (-1, s) ∧ s = st.kmem := by
  obtain ⟨st, d, hr, hd, hpresent, -⟩ := onePage
  have hL : Layout 0x101000 := ⟨by decide, by decide, by decide⟩
  have hk :=
    (protect_reached (.inl rfl) hL hr hd keepsFrame_clear 0 161).1 (.inr (.inl (by decide)))
  exact ⟨st, d, hr, hd, hpresent, _, hk, (failed_unchanged (.inl rfl) hL hr hd 0 161).1 _ hk⟩

/-! ### Success -/

/-- Page `p` is one of the `len` pages from `addr` on. -/
def Covers (addr : ℕ) (len : ℤ) (p : ℕ) : Prop := page addr ≤ p ∧ (p : ℤ) < page addr + len

/-- What a successful `mprotect` is for. -/
structure Protects (s : Kmem) (d addr : ℕ) (len : ℤ) (t : Kmem) : Prop where
  pos : 1 ≤ len
  below : addr + len * pgsize ≤ usertop
  present : ∀ p, Covers addr len p → Present (lookup s d p)
  cleared : ∀ p, Covers addr len p → ¬Writable (lookup t d p)
  bits : ∀ p, Covers addr len p → ∀ i ≠ 1,
    (lookup t d p).testBit i = (lookup s d p).testBit i
  entries : ∀ p < npages, ¬Covers addr len p → lookup t d p = lookup s d p
  words : ∀ a, (∀ p, Covers addr len p → a ≠ entryAddr s d p) → t.next a = s.next a

/-- **`mprotect` protects** what it is given, unless the end of the region wraps around or a page of
it is not mapped. -/
theorem protects_iff (hP : P = partA ∨ P = partB) (hL : Layout data)
    (hr : Reached P data end_ st) (hd : d ∈ st.pgdirs) (addr : ℕ) (len : ℤ) :
    (∀ t, mprotect P.kalloc d addr len st.kmem = .ok (0, t) → Protects st.kmem d addr len t) ↔
      (addr % pgsize = 0 → regionEnd addr len ≤ usertop → 0 < len →
        addr + len * pgsize < pointers ∧
          ∀ p, Covers addr len p → Present (lookup st.kmem d p)) := by
  obtain ⟨hbad, hgood⟩ := protect_reached hP hL hr hd keepsFrame_clear addr len
  constructor
  · intro h haddr hend hpos
    obtain ⟨t, ht, -⟩ := hgood (by omega)
    obtain ⟨-, hbelow, hpresent, -⟩ := h t ht
    refine ⟨hbelow.trans_lt ?_, hpresent⟩
    decide
  · intro h t ht
    have hc : ¬(addr % pgsize ≠ 0 ∨ usertop < regionEnd addr len ∨ len ≤ 0) := by
      intro hc
      have hret := (Prod.mk.inj (Except.ok.inj (ht.symm.trans (hbad hc)))).1
      cases hret
    have haddr : addr % pgsize = 0 := by omega
    have hend : regionEnd addr len ≤ usertop := by omega
    have hpos : 0 < len := by omega
    obtain ⟨hwrap, hpresent⟩ := h haddr hend hpos
    obtain ⟨t', ht', hlookup, hwords⟩ := hgood hc
    obtain ⟨-, rfl⟩ := Prod.mk.inj (Except.ok.inj (ht.symm.trans ht'))
    have hmem : ∀ p, p ∈ region addr len ↔ Covers addr len p := fun p =>
      mem_region hwrap haddr hpos
    have hbelow : addr + len * pgsize ≤ usertop := by
      have heq : (regionEnd addr len : ℤ) = addr + len * pgsize := by
        rw [regionEnd, Int.emod_eq_of_lt (by unfold pgsize; omega) hwrap, Int.toNat_of_nonneg]
        unfold pgsize
        omega
      rw [← heq]
      exact_mod_cast hend
    have hlt : ∀ p, Covers addr len p → p < npages := fun p hp => by
      have := region_lt haddr hend ((hmem p).2 hp)
      unfold npages
      omega
    have hentry : ∀ p, Covers addr len p → lookup t d p =
        lookup st.kmem d p ^^^ (lookup st.kmem d p &&& pteW) := fun p hp => by
      rw [hlookup p (hlt p hp), if_pos ((hmem p).2 hp)]
    refine ⟨by omega, hbelow, hpresent, fun p hp => ?_, fun p hp i hi => ?_, fun p hp hnot => ?_,
      fun a ha => hwords a fun p hp => ha p ((hmem p).1 hp)⟩
    · rw [hentry p hp]
      exact (User.clear_spec _).2.2
    · rw [hentry p hp, Nat.testBit_xor, Nat.testBit_and, testBit_pteW hi, Bool.and_false,
        Bool.xor_false]
    · rw [hlookup p hp, if_neg fun hm => hnot ((hmem p).1 hm)]

theorem covers_first {p : ℕ} : Covers 0 1 p ↔ p = 0 := by
  show 0 ≤ p ∧ (p : ℤ) < 0 + 1 ↔ p = 0
  omega

/-- The page of a process of one page is protected. -/
theorem protects_iff_onePage : ∃ st d t, Reached partA 0x101000 0xFC0001 st ∧ d ∈ st.pgdirs ∧
    mprotect partA.kalloc d 0 1 st.kmem = .ok (0, t) ∧ Protects st.kmem d 0 1 t := by
  obtain ⟨st, d, hr, hd, hpresent, -⟩ := onePage
  have hL : Layout 0x101000 := ⟨by decide, by decide, by decide⟩
  obtain ⟨t, ht, -⟩ := (protect_reached (.inl rfl) hL hr hd keepsFrame_clear 0 1).2 (by decide)
  refine ⟨st, d, t, hr, hd, ht, (protects_iff (.inl rfl) hL hr hd 0 1).2 (fun _ _ _ => ?_) t ht⟩
  refine ⟨by decide, fun p hp => ?_⟩
  rw [covers_first.1 hp]
  exact hpresent

/-- A call for the page and the next one succeeds too, though the next one is not mapped. -/
theorem not_protects : ¬∀ (P : Part) (data end_ : ℕ) (st : State) (d addr : ℕ) (len : ℤ) (t : Kmem),
    P = partA ∨ P = partB → Layout data → Reached P data end_ st → d ∈ st.pgdirs →
    mprotect P.kalloc d addr len st.kmem = .ok (0, t) → Protects st.kmem d addr len t := by
  intro h
  obtain ⟨st, d, hr, hd, -, -, habsent, -⟩ := onePage
  have hL : Layout 0x101000 := ⟨by decide, by decide, by decide⟩
  obtain ⟨t, ht, -⟩ := (protect_reached (.inl rfl) hL hr hd keepsFrame_clear 0 2).2 (by decide)
  have hprotects := h partA _ _ st d 0 2 t (.inl rfl) hL hr hd ht
  exact habsent (hprotects.present 1 (by unfold Covers; decide))

end OsProjects.Vm
