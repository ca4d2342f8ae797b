import OsProjects.Vm.Outcome

/-!
# The copy that fork makes

`copyuvm` follows the pages of the parent one by one.  After each turn the copy has new frames for
the pages so far, with the contents and the protection of the parent's (`Copied`), and every frame
that was allocated before is as it was.  At the end this is what a process needs of its copy
(`copies_of_copyuvm`).
-/

namespace OsProjects.Vm

open Alloc (Fault Kmem Part partA partB pgsize managedFrames Conserved Frames frameMemory
  PartA.kalloc)
open User (UserPage Writable writable_iff)
open Space

variable {P : Part} {data end_ : ℕ} {frames : List ℕ} {st : State} {s s₀ t : Kmem} {A B : Space}
  {d pgdir n p r sz v w : ℕ} {b : Bool}

/-! ### The entry of a copied page -/

theorem copyEntry_eq (v pte : ℕ) : copyEntry v pte = v ||| (pte &&& pteW ||| pteU ||| pteP) :=
  Nat.or_assoc _ _ _

theorem copyEntry_spec (hv : v % pgsize = 0) (pte : ℕ) : Present (copyEntry v pte) ∧
    UserPage (copyEntry v pte) ∧ (Writable (copyEntry v pte) ↔ Writable pte) ∧
    pteAddr (copyEntry v pte) = v := by
  have hflags : pte &&& pteW ||| pteU ||| pteP < pgsize :=
    Nat.or_lt_two_pow (n := 12) (Nat.or_lt_two_pow
      (lt_of_le_of_lt Nat.and_le_right (by decide)) (by decide)) (by decide)
  have hv1 : v.testBit 1 = false := by
    obtain ⟨k, rfl⟩ : ∃ k, v = 2 ^ 12 * k := ⟨v / pgsize, by unfold pgsize at *; omega⟩
    rw [Nat.testBit_two_pow_mul]
    rfl
  refine ⟨?_, ?_, ?_, ?_⟩
  · exact present_or _ _ (by decide)
  · rw [userPage_iff, copyEntry_eq]
    simp only [Nat.testBit_or, Bool.or_eq_true]
    exact .inr (.inl (.inr (by decide)))
  · rw [writable_iff, writable_iff, copyEntry_eq]
    simp only [Nat.testBit_or, Nat.testBit_and, hv1, show pteW.testBit 1 = true from rfl,
      show pteU.testBit 1 = false from rfl, show pteP.testBit 1 = false from rfl]
    simp
  · rw [copyEntry_eq]
    exact pteAddr_or hv hflags

/-! ### The loop -/

/-- The first `n` pages have been copied since `s₀`. -/
structure Copied (s₀ : Kmem) (pgdir n : ℕ) (s : Kmem) (A : Space) : Prop where
  confined : Confined frameMemory s₀ ∅ s A.frames
  copied : ∀ p < n, ∃ v, A.user p = some v ∧
    lookup s A.dir p = copyEntry v (lookup s₀ pgdir p) ∧
    ∀ i < 1024, s.next (v + 4 * i) = s₀.next (pteAddr (lookup s₀ pgdir p) + 4 * i)
  rest : ∀ p, n ≤ p → A.user p = none

/-- The copy of one more page. -/
theorem Copied.turn (hP : P = partA ∨ P = partB) (hF : Frames end_ frames) (hC : Conserved frames s)
    (h : A.Holds s) (hA : A.Ready) (hB : B.Holds s₀) (hn : n < 160) (hcop : Copied s₀ B.dir n s A)
    (hpresent : Present (lookup s₀ B.dir n)) {is : List ℕ}
    (hk : copyLoop P.kalloc B.dir A.dir (pgsize * n :: is) s = .ok (true, t)) :
    ∃ A' u, copyLoop P.kalloc B.dir A.dir is u = .ok (true, t) ∧ Evolves frames s A u A' ∧
      Copied s₀ B.dir (n + 1) u A' := by
  have hkept : ∀ w ∈ B.frames, w ∉ (∅ : Set ℕ) := fun w _ => Set.notMem_empty w
  have hparent := hB.lookup_others hcop.confined hkept n (by unfold npages; omega)
  obtain ⟨-, ⟨hb, -⟩ | ⟨r, u, hrest, hnone, hev, hlookup, hcontent, hwords⟩⟩ :=
    copyLoop_turn hP hF hn hC h hA hk
  · cases hb
  rw [hparent] at hlookup hcontent
  refine ⟨_, u, hrest, hev, hcop.confined.trans hev.confined, fun p hp => ?_, fun p hp => ?_⟩
  · rcases Nat.lt_succ_iff_lt_or_eq.1 hp with hp | rfl
    · obtain ⟨v, hu, hentry, hsame⟩ := hcop.copied p hp
      have hne : p ≠ n := hp.ne
      refine ⟨v, ?_, ?_, fun i hi => ?_⟩
      · show Function.update A.user n (some r) p = some v
        rw [Function.update_of_ne hne, hu]
      · show lookup u A.dir p = _
        rw [hlookup p (by unfold npages; omega), Function.update_of_ne hne, hentry]
      · rw [hwords v (h.user_mem p v hu) (h.apart p v hu) i hi, hsame i hi]
    · obtain ⟨v, hv⟩ := (hB.present_iff hn).1 hpresent
      have hvmem := hB.user_mem p v hv
      have haddr := hB.pteAddr_eq hv
      refine ⟨r, ?_, ?_, fun i hi => ?_⟩
      · show Function.update A.user p (some r) p = some r
        rw [Function.update_self]
      · show lookup u A.dir p = _
        rw [hlookup p (by unfold npages; omega), Function.update_self]
      · rw [hcontent v (hcop.confined.kept v hvmem (Set.notMem_empty v)) haddr i hi, haddr]
        exact Alloc.content_eq_iff.1 (hcop.confined.content_eq v hvmem (Set.notMem_empty v)) i hi
  · show Function.update A.user n (some r) p = none
    rw [Function.update_of_ne (by omega)]
    exact hcop.rest p (by omega)

/-- The loop of `copyuvm`. -/
theorem Copied.loop (hP : P = partA ∨ P = partB) (hF : Frames end_ frames) {k : ℕ}
    (hC : Conserved frames s) (h : A.Holds s) (hA : A.Ready) (hB : B.Holds s₀)
    (hn : n + k ≤ 160) (hcop : Copied s₀ B.dir n s A)
    (hpresent : ∀ p < n + k, Present (lookup s₀ B.dir p))
    (hk : copyLoop P.kalloc B.dir A.dir ((List.range' n k).map (pgsize * ·)) s = .ok (true, t)) :
    ∃ A', Evolves frames s A t A' ∧ Copied s₀ B.dir (n + k) t A' := by
  induction k generalizing n s A with
  | zero =>
    obtain ⟨-, rfl⟩ := Prod.mk.inj (pure_ok.1 hk)
    exact ⟨A, .refl hC h, hcop⟩
  | succ k ih =>
    rw [List.range'_succ, List.map_cons] at hk
    obtain ⟨A₁, u, hrest, hev, hcop₁⟩ := hcop.turn hP hF hC h hA hB (by omega)
      (hpresent n (by omega)) hk
    rw [← hev.dir] at hrest
    rw [show n + (k + 1) = n + 1 + k by omega] at hn hpresent ⊢
    obtain ⟨A', hev', hcop'⟩ := ih hev.conserved hev.holds (hev.ready hA) hn hcop₁ hpresent hrest
    exact ⟨A', hev.trans hev', hcop'⟩

/-! ### `copyuvm` -/

/-- The frame is free. -/
def Free (s : Kmem) (v : ℕ) : Prop :=
  ∃ free, Chain 0 s.next s.freelist free ∧ v ∈ free

/-- Page `p` of the copy `d`: a frame that was free, with the contents and the protection of the
parent's page. -/
structure CopiedPage (s : Kmem) (pgdir : ℕ) (t : Kmem) (d p : ℕ) : Prop where
  present : Present (lookup t d p)
  user : UserPage (lookup t d p)
  writable : Writable (lookup t d p) ↔ Writable (lookup s pgdir p)
  free : Free s (pteAddr (lookup t d p))
  unused : pteAddr (lookup t d p) ∉ s.allocated
  allocated : pteAddr (lookup t d p) ∈ t.allocated
  ne_dir : pteAddr (lookup t d p) ≠ d
  ne_table : ∀ j < npdentries, Present (t.next (d + 4 * j)) →
    pteAddr (lookup t d p) ≠ pteAddr (t.next (d + 4 * j))
  contents : ∀ i < 1024, t.next (pteAddr (lookup t d p) + 4 * i) =
    s.next (pteAddr (lookup s pgdir p) + 4 * i)

/-- The copy `d` of the pages of `pgdir` below `sz`, made between `s` and `t`. -/
structure Copies (s : Kmem) (pgdir sz : ℕ) (t : Kmem) (d : ℕ) : Prop where
  page : ∀ p, p * pgsize < sz → CopiedPage s pgdir t d p
  distinct : ∀ p q, p * pgsize < sz → q * pgsize < sz →
    pteAddr (lookup t d p) = pteAddr (lookup t d q) → p = q
  unmapped : ∀ p, sz ≤ p * pgsize → p * pgsize < usertop → ¬Present (lookup t d p)
  no_user : ∀ p < npages, sz ≤ p * pgsize → ¬(Present (lookup t d p) ∧ UserPage (lookup t d p))
  parent : ∀ p < npages, lookup t pgdir p = lookup s pgdir p
  frames : ∀ v ∈ s.allocated, v ∈ t.allocated ∧ ∀ i < 1024, t.next (v + 4 * i) = s.next (v + 4 * i)

/-- What the loop has copied is a copy. -/
theorem Copied.copies (hF : Frames end_ frames) (hCs : Conserved frames s)
    (hCt : Conserved frames t) (hA : A.Holds t) (hB : B.Holds s)
    (hcop : Copied s B.dir ((sz + (pgsize - 1)) / pgsize) t A) : Copies s B.dir sz t A.dir := by
  have hpages : ∀ p, p * pgsize < sz ↔ p < (sz + (pgsize - 1)) / pgsize := fun p => by
    unfold pgsize
    omega
  have hempty : ∀ w ∈ B.frames, w ∉ (∅ : Set ℕ) := fun w _ => Set.notMem_empty w
  have hframe : ∀ p, p * pgsize < sz → ∃ v, A.user p = some v ∧
      lookup t A.dir p = copyEntry v (lookup s B.dir p) ∧ v % pgsize = 0 ∧
      pteAddr (lookup t A.dir p) = v := fun p hp => by
    obtain ⟨v, hu, hentry, -⟩ := hcop.copied p ((hpages p).1 hp)
    exact ⟨v, hu, hentry, aligned hF hCt (hA.user_mem p v hu), hA.pteAddr_eq hu⟩
  refine ⟨fun p hp => ?_, fun p q hp hq he => ?_, fun p hp hlt => ?_, fun p hp hle => ?_,
    hB.lookup_others hcop.confined hempty, fun v hv => ⟨?_, ?_⟩⟩
  · obtain ⟨v, hu, hentry, hmod, haddr⟩ := hframe p hp
    obtain ⟨hpresent, huser, hwritable, -⟩ := copyEntry_spec hmod (lookup s B.dir p)
    have hv := hA.user_mem p v hu
    have hapart := hA.apart p v hu
    have hunused : v ∉ s.allocated := fun hvs => hcop.confined.fresh v (.inr ⟨p, hu⟩) hvs
    obtain ⟨v', hu', -, hcontents⟩ := hcop.copied p ((hpages p).1 hp)
    obtain rfl := Option.some.inj (hu.symm.trans hu')
    have hfree : Free s v := by
      obtain ⟨free, hc, hperm⟩ := hCs
      refine ⟨free, hc, ?_⟩
      have hmem := hperm.symm.subset (mem_frames hCt hv)
      exact (List.mem_append.1 hmem).resolve_right hunused
    refine ⟨?_, ?_, ?_, ?_, ?_, ?_, ?_, ?_, ?_⟩
    · rwa [hentry]
    · rwa [hentry]
    · rwa [hentry]
    · rwa [haddr]
    · rwa [haddr]
    · rwa [haddr]
    · rw [haddr]
      rintro rfl
      exact hapart List.mem_cons_self
    · intro j hj hpde
      rw [haddr]
      rintro rfl
      -- A present entry of the directory is one of its tables.
      by_cases hkey : j ∈ A.tables.map Prod.fst
      · obtain ⟨⟨j', f⟩, hf, rfl : j' = j⟩ := List.mem_map.1 hkey
        refine hapart (List.mem_cons_of_mem _ ?_)
        rw [(hA.paging.entries.pde j' f hf).2]
        exact List.mem_map_of_mem hf
      · exact hA.paging.entries.absent j hj hkey hpde
    · rw [haddr]
      exact hcontents
  · obtain ⟨v, hu, -, -, haddr⟩ := hframe p hp
    obtain ⟨w, hw, -, -, haddr'⟩ := hframe q hq
    rw [haddr, haddr'] at he
    exact hA.inj p q v hu (he ▸ hw)
  · have hp160 : p < 160 := by
      unfold pgsize usertop at *
      omega
    rw [hA.present_iff hp160, hcop.rest p (by have := hpages p; omega)]
    exact nofun
  · have hentry := hA.entries p hp
    rw [EntryOk, hcop.rest p (by have := hpages p; omega)] at hentry
    split at hentry
    · exact fun hu => hentry hu.1
    · exact hentry
  · exact hcop.confined.kept v hv (Set.notMem_empty v)
  · exact Alloc.content_eq_iff.1 (hcop.confined.content_eq v hv (Set.notMem_empty v))

/-- **fork copies memory and protection.**  If the pages below `sz` are mapped for user mode and
`copyuvm` returns a page directory, this is a copy of them. -/
theorem copies_of_copyuvm (hP : P = partA ∨ P = partB) (hL : Layout data)
    (hr : Reached P data end_ st) (hpgdir : pgdir ∈ st.pgdirs)
    (hpages : ∀ p, p * pgsize < sz →
      Present (lookup st.kmem pgdir p) ∧ UserPage (lookup st.kmem pgdir p))
    (hk : copyuvm P.kalloc data end_ pgdir sz st.kmem = .ok (d, t)) (hd : d ≠ 0) :
    Copies st.kmem pgdir sz t d := by
  obtain ⟨hF, G, hI⟩ := isolated_reached hP hL hr
  obtain ⟨B, hGB⟩ := (hI.live pgdir).1 hpgdir
  obtain ⟨rfl, -, hB⟩ := hI.space pgdir B hGB
  -- The first page of the kernel part is not for user mode.
  have hsz : sz ≤ usertop := by
    by_contra hsz
    have hkernel := hB.entries 160 (by decide)
    rw [EntryOk, if_neg (by decide)] at hkernel
    refine hkernel (hpages 160 ?_)
    unfold pgsize usertop at *
    omega
  obtain ⟨⟨d', s₁⟩, hsetup, hk⟩ := bind_ok.1 hk
  obtain ⟨hC₁, -, hnew⟩ := setupkvm_evolves hP hF hL hI.conserved hsetup
  dsimp only at hk
  split at hk
  · exact absurd (Prod.mk.inj (pure_ok.1 hk)).1.symm hd
  rename_i h0
  obtain ⟨T, hA, hready, hc₁⟩ := hnew h0
  obtain ⟨⟨ok, s₂⟩, hloop, hk⟩ := bind_ok.1 hk
  dsimp only at hk
  split at hk
  swap
  · obtain ⟨s₃, -, hk⟩ := bind_ok.1 hk
    exact absurd (Prod.mk.inj (pure_ok.1 hk)).1.symm hd
  rename_i hok
  obtain ⟨rfl, rfl⟩ := Prod.mk.inj (pure_ok.1 hk)
  subst hok
  rw [pagesBetween_zero, List.range_eq_range'] at hloop
  have hcount : 0 + (sz + (pgsize - 1)) / pgsize ≤ 160 := by
    unfold pgsize usertop at *
    omega
  have hstart : Copied st.kmem B.dir 0 s₁ ⟨d', T, fun _ => none⟩ :=
    ⟨hc₁, fun p hp => absurd hp (Nat.not_lt_zero p), fun _ _ => rfl⟩
  obtain ⟨A, hev, hcop⟩ := hstart.loop hP hF hC₁ hA hready hB hcount
    (fun p hp => (hpages p (by unfold pgsize at *; omega)).1) hloop
  rw [Nat.zero_add] at hcop
  have hdir : A.dir = d' := hev.dir
  rw [← hdir]
  exact hcop.copies hF hI.conserved hev.conserved hev.holds hB

/-- `copyuvm` of one page, with enough frames. -/
theorem copyuvm_first (hL : Layout data) (hF : Frames end_ frames) (hC : Conserved frames s)
    (hB : B.Holds s) (hready : B.Ready) (hpresent : Present (lookup s B.dir 0))
    (hn : s.allocated.length + 14 ≤ frames.length) :
    ∃ d t, copyuvm PartA.kalloc data end_ B.dir pgsize s = .ok (d, t) ∧ d ≠ 0 := by
  obtain ⟨d, s₁, hsetup, hC₁, ⟨-, hfull, -⟩ | ⟨-, -, hfew, -⟩ | ⟨hd0, -, T, -, hal, hT⟩⟩ :=
    setupkvm_spec hL hF hC
  · omega
  · omega
  have hlen : s₁.allocated.length = s.allocated.length + 13 := by
    rw [hal, List.length_append, List.length_cons, List.length_map]
    omega
  obtain ⟨-, -, hnew⟩ := setupkvm_evolves (.inl rfl) hF hL hC hsetup
  obtain ⟨T', hA, ⟨f, hf⟩, hc₁⟩ := hnew hd0
  have hempty : ∀ w ∈ B.frames, w ∉ (∅ : Set ℕ) := fun w _ => Set.notMem_empty w
  have hB₁ := hB.others hc₁ hempty
  rw [← hB.lookup_others hc₁ hempty 0 (by decide)] at hpresent
  obtain ⟨tab, htab⟩ := hready
  obtain ⟨r, s₂, hk, hr0, -⟩ := kalloc_some hF hC₁ (by omega)
  have habsent : ¬Present (lookup s₁ d 0) := by
    have hiff := hA.present_iff (p := 0) (by decide)
    exact fun hp => nomatch hiff.1 hp
  have hentry := hB₁.paging.lookup_user (p := 0) htab (by decide)
  rw [hentry] at hpresent
  obtain ⟨u, hmap⟩ : ∃ u, mappages PartA.kalloc d (pgsize * 0) pgsize r
      (s₁.next (tab + 4 * 0) &&& pteW ||| pteU)
      (copyPage r (pteAddr (s₁.next (tab + 4 * 0))) s₂) = .ok (true, u) := by
    have hmap := mappages_frame (.inl rfl) hF hC₁ hA hf (p := 0) (by decide) hk hr0
      (copyPage r (pteAddr (s₁.next (tab + 4 * 0))) s₂).next (fun a ha => if_neg ha)
      (s₁.next (tab + 4 * 0) &&& pteW ||| pteU)
    rw [if_neg habsent] at hmap
    exact ⟨_, hmap⟩
  have hwalk := hB₁.paging.walk_user (p := 0) htab (by decide) PartA.kalloc false
  refine ⟨d, u, ?_, hd0⟩
  rw [copyuvm, hsetup, ok_bind]
  dsimp only
  rw [if_neg hd0, show pagesBetween 0 pgsize = [pgsize * 0] from rfl, copyLoop, hwalk, ok_bind]
  dsimp only
  rw [if_neg (hB₁.paging.pte_ne_zero htab hF hC₁ 0), if_neg (not_not.2 hpresent), hk]
  simp only [ok_bind, if_neg hr0, hmap, if_true]
  rfl

/-- The copy of a process of one page. -/
theorem copies_of_copyuvm_onePage : ∃ (st : State) (pgdir d : ℕ) (t : Kmem),
    Reached partA 0x101000 0xFC0001 st ∧ pgdir ∈ st.pgdirs ∧ Present (lookup st.kmem pgdir 0) ∧
    copyuvm partA.kalloc 0x101000 0xFC0001 pgdir pgsize st.kmem = .ok (d, t) ∧
    Copies st.kmem pgdir pgsize t d := by
  obtain ⟨st, pgdir, hr, hpgdir, hpresent, huser, -, hlen⟩ := onePage
  have hL : Layout 0x101000 := ⟨by decide, by decide, by decide⟩
  obtain ⟨d, t, hk, hd⟩ : ∃ d t,
      copyuvm partA.kalloc 0x101000 0xFC0001 pgdir pgsize st.kmem = .ok (d, t) ∧ d ≠ 0 := by
    obtain ⟨hF, G, hI⟩ := isolated_reached (.inl rfl) hL hr
    obtain ⟨B, hGB⟩ := (hI.live pgdir).1 hpgdir
    obtain ⟨rfl, hready, hB⟩ := hI.space pgdir B hGB
    exact copyuvm_first hL hF hI.conserved hB hready hpresent hlen
  refine ⟨st, pgdir, d, t, hr, hpgdir, hpresent, hk,
    copies_of_copyuvm (.inl rfl) hL hr hpgdir (fun p hp => ?_) hk hd⟩
  obtain rfl : p = 0 := by
    unfold pgsize at hp
    omega
  exact ⟨hpresent, huser⟩

end OsProjects.Vm
