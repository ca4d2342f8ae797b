import OsProjects.Vm.Outcome

/-!
# The laws of mprotect and munprotect

A call that is accepted changes the words of memory that are the entries of its pages, and no others
(`protect_eq`).  What two calls do one after the other is then what two functions do to the same
word, or to different words.

* `mapWords`: a function applied to some words of memory;
* `Laws`: the laws of an accepted call on a page table;
* `laws`: they hold of every page table from boot on.
-/

namespace OsProjects.Vm

open Alloc (Fault Kmem Part partA partB pgsize pointers Conserved Frames)
open User (regionEnd region)

/-- The words at some addresses, replaced by what a function makes of them. -/
def mapWords (f : ℕ → ℕ) (words : List ℕ) (s : Kmem) : Kmem :=
  { s with next := fun a => if a ∈ words then f (s.next a) else s.next a }

section Words

variable {f g : ℕ → ℕ} {u v : List ℕ}

theorem mapWords_comp (f g : ℕ → ℕ) (u : List ℕ) (s : Kmem) :
    mapWords g u (mapWords f u s) = mapWords (fun w => g (f w)) u s := by
  refine congrArg (Kmem.mk s.freelist · s.allocList s.allocSize s.rand) ?_
  funext a
  by_cases ha : a ∈ u
  · simp only [mapWords, if_pos ha]
  · simp only [mapWords, if_neg ha]

theorem mapWords_comm (h : ∀ a ∈ u, a ∉ v) (s : Kmem) :
    mapWords g v (mapWords f u s) = mapWords f u (mapWords g v s) := by
  refine congrArg (Kmem.mk s.freelist · s.allocList s.allocSize s.rand) ?_
  funext a
  by_cases ha : a ∈ u
  · simp only [mapWords, if_pos ha, if_neg (h a ha)]
  · simp only [mapWords, if_neg ha]

end Words

/-- The addresses of the entries of some pages. -/
def entries (s : Kmem) (pgdir : ℕ) (ps : List ℕ) : List ℕ := ps.map (entryAddr s pgdir)

/-- What the checks of `mprotect` and `munprotect` let pass. -/
def Accepted (addr : ℕ) (len : ℤ) : Prop :=
  addr % pgsize = 0 ∧ regionEnd addr len ≤ usertop ∧ 0 < len

/-- The two calls. -/
def calls (P : Part) : List (ℕ → ℕ → ℤ → Kmem → Except Fault (ℤ × Kmem)) :=
  [mprotect P.kalloc, munprotect P.kalloc]

/-- A call that succeeds and changes nothing but `PTE_W` in the entries of its pages. -/
structure ChangesW (s : Kmem) (d addr : ℕ) (len : ℤ) (r : ℤ) (t : Kmem) : Prop where
  ret : r = 0
  outside : ∀ p < npages, p ∉ region addr len → lookup t d p = lookup s d p
  inside : ∀ p ∈ region addr len, ∀ i ≠ 1, (lookup t d p).testBit i = (lookup s d p).testBit i
  words : ∀ a ∉ entries s d (region addr len), t.next a = s.next a

/-- The laws of an accepted call on the page table `d`. -/
structure Laws (P : Part) (s : Kmem) (d addr : ℕ) (len : ℤ) : Prop where
  /-- The pages of the loop are among the `len` pages from `addr` on. -/
  range : ∀ p ∈ region addr len, Covers addr len p
  /-- The last of two calls decides, be it the same call again or the other one. -/
  last : ∀ op ∈ calls P, ∀ op' ∈ calls P,
    (do let r ← op d addr len s; op' d addr len r.2) = op' d addr len s
  commute : ∀ addr' len', Accepted addr' len' → (∀ p ∈ region addr len, p ∉ region addr' len') →
    ∀ op ∈ calls P, ∀ op' ∈ calls P,
      (do let r ← op d addr len s; op' d addr' len' r.2) =
        (do let r ← op' d addr' len' s; op d addr len r.2)
  changes : ∀ op ∈ calls P, ∃ r t, op d addr len s = .ok (r, t) ∧ ChangesW s d addr len r t

/-! ### Entries -/

/-- A change of an entry that gives `PTE_W` a value and keeps the other bits. -/
def SetsW (b : Bool) (f : ℕ → ℕ) : Prop :=
  ∀ w, (f w).testBit 1 = b ∧ ∀ i ≠ 1, (f w).testBit i = w.testBit i

section Bits

variable {b c : Bool} {f g : ℕ → ℕ} {P : Part}

theorem setsW_clear : SetsW false fun pte => pte ^^^ (pte &&& pteW) := by
  refine fun w => ⟨?_, fun i hi => ?_⟩
  · rw [Nat.testBit_xor, Nat.testBit_and]
    cases w.testBit 1 <;> decide
  · rw [Nat.testBit_xor, Nat.testBit_and, User.testBit_pteW hi, Bool.and_false, Bool.xor_false]

theorem setsW_set : SetsW true fun pte => pte ||| pteW := by
  refine fun w => ⟨?_, fun i hi => ?_⟩
  · rw [Nat.testBit_or]
    cases w.testBit 1 <;> decide
  · rw [Nat.testBit_or, User.testBit_pteW hi, Bool.or_false]

theorem SetsW.keepsFrame (hf : SetsW b f) : KeepsFrame f := fun w =>
  ⟨by rw [present_iff, present_iff, (hf w).2 0 (by decide)],
    pteAddr_congr fun i hi => (hf w).2 i (by omega)⟩

/-- The last change decides. -/
theorem SetsW.comp (hf : SetsW b f) (hg : SetsW c g) : (fun w => g (f w)) = g := by
  funext w
  apply Nat.eq_of_testBit_eq
  intro i
  by_cases hi : i = 1
  · rw [hi, (hg (f w)).1, (hg w).1]
  · rw [(hg (f w)).2 i hi, (hf w).2 i hi, (hg w).2 i hi]

theorem exists_setsW {op : ℕ → ℕ → ℤ → Kmem → Except Fault (ℤ × Kmem)} (hop : op ∈ calls P) :
    ∃ b f, SetsW b f ∧ op = protect P.kalloc f := by
  rcases List.mem_pair.1 hop with rfl | rfl
  · exact ⟨false, _, setsW_clear, rfl⟩
  · exact ⟨true, _, setsW_set, rfl⟩

end Bits

/-! ### Calls -/

variable {kalloc : Kmem → Except Fault (ℕ × Kmem)} {end_ : ℕ} {frames : List ℕ} {s t : Kmem}
  {A : Space} {f g : ℕ → ℕ} {tab addr p : ℕ} {len : ℤ} {ps : List ℕ}

theorem covers_of_mem_region (h : Accepted addr len) (hp : p ∈ region addr len) :
    Covers addr len p := by
  obtain ⟨haddr, hend, hpos⟩ := h
  have hle : (regionEnd addr len : ℤ) ≤ addr + len * pgsize := by
    rw [regionEnd, Int.toNat_of_nonneg (Int.emod_nonneg _ (by decide))]
    unfold pgsize pointers
    omega
  rw [region, List.mem_range'_1] at hp
  unfold Covers page
  unfold User.page pgsize at *
  omega

theorem entryAddr_eq (h : A.Holds s) (htab : (0, tab) ∈ A.tables) (hp : p < 160) :
    entryAddr s A.dir p = tab + 4 * p := by
  rw [entryAddr, Nat.div_eq_of_lt (by omega), Nat.mod_eq_of_lt (by omega),
    (h.paging.entries.pde 0 tab htab).2]

/-- An address space whose tables stay has its entries where they were. -/
theorem entries_eq (hA : A.Ready) (hs : A.Holds s) (ht : A.Holds t) (hps : ∀ p ∈ ps, p < 160) :
    entries t A.dir ps = entries s A.dir ps := by
  obtain ⟨tab, htab⟩ := hA
  refine List.map_congr_left fun p hp => ?_
  rw [entryAddr_eq ht htab (hps p hp), entryAddr_eq hs htab (hps p hp)]

/-- The loop leaves the variables of the allocator alone. -/
theorem protectLoop_next {is : List ℕ} {b : Bool} {d : ℕ}
    (h : protectLoop kalloc f d is s = .ok (b, t)) : t = { s with next := t.next } := by
  induction is generalizing s with
  | nil =>
    rw [protectLoop, pure_ok] at h
    obtain ⟨-, rfl⟩ := Prod.mk.inj h
    rfl
  | cons i is ih =>
    rw [protectLoop, bind_ok] at h
    obtain ⟨⟨pte, s'⟩, hwalk, h⟩ := h
    rw [walkpgdir_false, Except.ok.injEq, Prod.mk.injEq] at hwalk
    obtain ⟨-, rfl⟩ := hwalk
    dsimp only at h
    split at h
    · have ht := ih h
      exact ht
    · obtain ⟨-, rfl⟩ := Prod.mk.inj (pure_ok.1 h)
      rfl

theorem protect_next {r : ℤ} {d : ℕ} (h : protect kalloc f d addr len s = .ok (r, t)) :
    t = { s with next := t.next } := by
  rw [protect] at h
  split at h
  · obtain ⟨-, rfl⟩ := Prod.mk.inj (pure_ok.1 h)
    rfl
  · obtain ⟨⟨ok, s'⟩, hloop, h⟩ := bind_ok.1 h
    obtain ⟨-, rfl⟩ := Prod.mk.inj (pure_ok.1 h)
    exact protectLoop_next hloop

variable (kalloc) in
/-- An accepted call applies its change to the entries of its pages. -/
theorem protect_eq (hF : Frames end_ frames) (hf : KeepsFrame f) (hC : Conserved frames s)
    (h : A.Holds s) (hA : A.Ready) (hacc : Accepted addr len) :
    protect kalloc f A.dir addr len s =
        .ok (0, mapWords f (entries s A.dir (region addr len)) s) ∧
      Evolves frames s A (mapWords f (entries s A.dir (region addr len)) s) A := by
  obtain ⟨haddr, hend, hpos⟩ := hacc
  obtain ⟨t, ht, hev, hlookup, hrest⟩ :=
    (protect_spec kalloc hF hf hC h hA addr len).2 (by omega)
  have heq : mapWords f (entries s A.dir (region addr len)) s = t := by
    rw [protect_next ht]
    refine congrArg (Kmem.mk s.freelist · s.allocList s.allocSize s.rand) ?_
    funext a
    obtain ⟨tab, htab⟩ := hA
    split
    · rename_i hmem
      obtain ⟨p, hp, rfl⟩ := List.mem_map.1 hmem
      have hp160 := region_lt haddr hend hp
      have hlook := hlookup p (by unfold npages; omega)
      rw [if_pos hp, hev.holds.paging.lookup_user htab hp160,
        h.paging.lookup_user htab hp160] at hlook
      rw [entryAddr_eq h htab hp160, hlook]
    · rename_i hmem
      refine (hrest a fun p hp he => hmem ?_).symm
      exact List.mem_map.2 ⟨p, hp, he.symm⟩
  rw [heq]
  exact ⟨ht, hev⟩

/-! ### The laws -/

section Laws

variable {b c : Bool} {P : Part} {data d addr' : ℕ} {len' : ℤ} {st : State}

variable (kalloc) in
theorem protect_last (hF : Frames end_ frames) (hf : SetsW b f) (hg : SetsW c g)
    (hC : Conserved frames s) (h : A.Holds s) (hA : A.Ready) (hacc : Accepted addr len) :
    (do let r ← protect kalloc f A.dir addr len s; protect kalloc g A.dir addr len r.2) =
      protect kalloc g A.dir addr len s := by
  have hlt : ∀ p ∈ region addr len, p < 160 := fun p hp => region_lt hacc.1 hacc.2.1 hp
  obtain ⟨hfirst, hev⟩ := protect_eq kalloc hF hf.keepsFrame hC h hA hacc
  obtain ⟨hsecond, -⟩ := protect_eq kalloc hF hg.keepsFrame hev.conserved hev.holds hA hacc
  rw [hfirst, ok_bind, hsecond, entries_eq hA h hev.holds hlt, mapWords_comp, hf.comp hg,
    (protect_eq kalloc hF hg.keepsFrame hC h hA hacc).1]

/-- The entries of different pages are different words. -/
theorem entries_disjoint (hA : A.Ready) (h : A.Holds s) (hacc : Accepted addr len)
    (hacc' : Accepted addr' len') (hdis : ∀ p ∈ region addr len, p ∉ region addr' len') :
    ∀ a ∈ entries s A.dir (region addr len), a ∉ entries s A.dir (region addr' len') := by
  obtain ⟨tab, htab⟩ := hA
  intro a ha ha'
  obtain ⟨p, hp, rfl⟩ := List.mem_map.1 ha
  obtain ⟨q, hq, heq⟩ := List.mem_map.1 ha'
  rw [entryAddr_eq h htab (region_lt hacc.1 hacc.2.1 hp),
    entryAddr_eq h htab (region_lt hacc'.1 hacc'.2.1 hq)] at heq
  obtain rfl : q = p := by omega
  exact hdis q hp hq

variable (kalloc) in
theorem protect_comm (hF : Frames end_ frames) (hf : SetsW b f) (hg : SetsW c g)
    (hC : Conserved frames s) (h : A.Holds s) (hA : A.Ready) (hacc : Accepted addr len)
    (hacc' : Accepted addr' len') (hdis : ∀ p ∈ region addr len, p ∉ region addr' len') :
    (do let r ← protect kalloc f A.dir addr len s; protect kalloc g A.dir addr' len' r.2) =
      (do let r ← protect kalloc g A.dir addr' len' s; protect kalloc f A.dir addr len r.2) := by
  have hlt : ∀ p ∈ region addr len, p < 160 := fun p hp => region_lt hacc.1 hacc.2.1 hp
  have hlt' : ∀ p ∈ region addr' len', p < 160 := fun p hp => region_lt hacc'.1 hacc'.2.1 hp
  obtain ⟨hf₁, hev⟩ := protect_eq kalloc hF hf.keepsFrame hC h hA hacc
  obtain ⟨hg₁, hev'⟩ := protect_eq kalloc hF hg.keepsFrame hC h hA hacc'
  obtain ⟨hg₂, -⟩ := protect_eq kalloc hF hg.keepsFrame hev.conserved hev.holds hA hacc'
  obtain ⟨hf₂, -⟩ := protect_eq kalloc hF hf.keepsFrame hev'.conserved hev'.holds hA hacc
  rw [hf₁, hg₁, ok_bind, ok_bind, hg₂, hf₂, entries_eq hA h hev.holds hlt',
    entries_eq hA h hev'.holds hlt, mapWords_comm (entries_disjoint hA h hacc hacc' hdis)]

variable (kalloc) in
theorem protect_changesW (hF : Frames end_ frames) (hf : SetsW b f) (hC : Conserved frames s)
    (h : A.Holds s) (hA : A.Ready) (hacc : Accepted addr len) :
    ∃ r t, protect kalloc f A.dir addr len s = .ok (r, t) ∧ ChangesW s A.dir addr len r t := by
  obtain ⟨haddr, hend, hpos⟩ := hacc
  obtain ⟨t, ht, -, hlookup, hrest⟩ :=
    (protect_spec kalloc hF hf.keepsFrame hC h hA addr len).2 (by omega)
  refine ⟨0, t, ht, rfl, fun p hp hnot => ?_, fun p hp i hi => ?_, fun a ha => ?_⟩
  · rw [hlookup p hp, if_neg hnot]
  · have hp160 := region_lt haddr hend hp
    rw [hlookup p (by unfold npages; omega), if_pos hp, (hf _).2 i hi]
  · exact hrest a fun p hp he => ha (List.mem_map.2 ⟨p, hp, he.symm⟩)

/-- **The laws of mprotect and munprotect**. -/
theorem laws (hP : P = partA ∨ P = partB) (hL : Layout data) (hr : Reached P data end_ st)
    (hd : d ∈ st.pgdirs) (hacc : Accepted addr len) : Laws P st.kmem d addr len := by
  obtain ⟨hF, G, hI⟩ := isolated_reached hP hL hr
  obtain ⟨A, hA⟩ := (hI.live d).1 hd
  obtain ⟨rfl, hready, hholds⟩ := hI.space d A hA
  refine ⟨fun p hp => covers_of_mem_region hacc hp, fun op hop op' hop' => ?_,
    fun addr' len' hacc' hdis op hop op' hop' => ?_, fun op hop => ?_⟩
  · obtain ⟨b, f, hf, rfl⟩ := exists_setsW hop
    obtain ⟨c, g, hg, rfl⟩ := exists_setsW hop'
    exact protect_last P.kalloc hF hf hg hI.conserved hholds hready hacc
  · obtain ⟨b, f, hf, rfl⟩ := exists_setsW hop
    obtain ⟨c, g, hg, rfl⟩ := exists_setsW hop'
    exact protect_comm P.kalloc hF hf hg hI.conserved hholds hready hacc hacc' hdis
  · obtain ⟨b, f, hf, rfl⟩ := exists_setsW hop
    exact protect_changesW P.kalloc hF hf hI.conserved hholds hready hacc

/-- The laws of the one page of a process. -/
theorem laws_onePage : ∃ st d, Reached partA 0x101000 0xFC0001 st ∧ d ∈ st.pgdirs ∧
    Present (lookup st.kmem d 0) ∧ Laws partA st.kmem d 0 1 := by
  obtain ⟨st, d, hr, hd, hpresent, -⟩ := onePage
  have hL : Layout 0x101000 := ⟨by decide, by decide, by decide⟩
  have hacc : Accepted 0 1 := ⟨by decide, by decide, by decide⟩
  exact ⟨st, d, hr, hd, hpresent, laws (.inl rfl) hL hr hd hacc⟩

end Laws

end OsProjects.Vm
