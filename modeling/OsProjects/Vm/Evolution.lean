import OsProjects.Vm.Space

/-!
# What the operations do to an address space

`setupkvm` makes a new one; `allocuvm`, `deallocuvm` and the loop of `copyuvm` change the user pages
of theirs; `freevm` gives its frames back.  Each is confined to the frames of the page directory it
is given and to frames that were free.

What `allocuvm` and `deallocuvm` do to the entries of the user pages is what they do to the page
table of user memory (`userTable`), with the frames that `kalloc` returns.
-/

namespace OsProjects.Vm

open Alloc (Fault Kmem Part partA partB pgsize phystop pointers kfree Conserved Frames frameMemory)
open User (UserPage)
open Space

variable {P : Part} {end_ data : ℕ} {frames : List ℕ} {s s₁ t u : Kmem} {A A' : Space}
  {d f p r perm v : ℕ} {b : Bool} {ms : List Mapping} {ps : List ℕ}

/-! ### The kernel part -/

theorem userPage_iff {w : ℕ} : UserPage w ↔ w.testBit 2 = true := by
  rw [UserPage, show pteU = 2 ^ 2 from rfl, Nat.and_two_pow]
  cases w.testBit 2 <;> simp

/-- A mapping of the kernel part: above the user pages and not for user mode. -/
structure Mapping.Kernel (m : Mapping) : Prop where
  lt : m.a < pointers
  above : 160 ≤ page m.a
  supervisor : ¬UserPage (m.pa ||| m.perm ||| pteP)

theorem kernelMappings_kernel (hL : Layout data) :
    ∀ m ∈ kernelMappings (kmap data), m.Kernel := by
  intro m hm
  have hpage : page m.a ∈ pages (kernelMappings (kmap data)) := List.mem_map_of_mem hm
  obtain ⟨k, hk, hmk⟩ := List.mem_flatMap.1 hm
  refine ⟨mappings_lt m hmk, ?_, ?_⟩
  · have := (mem_pages_kernel hL).1 hpage
    omega
  have hkmap : k.p % pgsize = 0 ∧ k.perm.testBit 2 = false := by
    have haligned := hL.aligned
    simp only [kmap, List.mem_cons, List.not_mem_nil, or_false] at hk
    have htext : 0x100000 % pgsize = 0 := by decide
    have hzero : Nat.testBit 0 2 = false := by decide
    have hwrite : pteW.testBit 2 = false := by decide
    rcases hk with rfl | rfl | rfl | rfl
    · exact ⟨rfl, hwrite⟩
    · exact ⟨htext, hzero⟩
    · exact ⟨haligned, hwrite⟩
    · exact ⟨rfl, hwrite⟩
  obtain ⟨i, -, rfl⟩ := List.mem_map.1 hmk
  have hpa : (k.p + pgsize * i) % pointers = 2 ^ 12 * ((k.p + pgsize * i) % pointers / 2 ^ 12) := by
    have := hkmap.1
    unfold pgsize pointers at *
    omega
  have hbit : ((k.p + pgsize * i) % pointers).testBit 2 = false := by
    rw [hpa, Nat.testBit_two_pow_mul]
    simp
  rw [userPage_iff]
  show ¬((k.p + pgsize * i) % pointers ||| k.perm ||| pteP).testBit 2 = true
  rw [Nat.testBit_or, Nat.testBit_or, hbit, hkmap.2]
  decide

def Space.addTables (A : Space) (new : List (ℕ × ℕ)) : Space := { A with tables := A.tables ++ new }

theorem addTables_nil (A : Space) : A.addTables [] = A := by
  rw [Space.addTables, List.append_nil]

/-! ### User pages -/

/-- The entries of the user pages: the page table of user memory. -/
def userTable (s : Kmem) (d p : ℕ) : ℕ := if p < 160 then lookup s d p else 0

theorem userTable_of_lt (hp : p < 160) : userTable s d p = lookup s d p := if_pos hp

theorem userTable_congr (h : ∀ p < npages, lookup t d p = lookup s d p) :
    userTable t d = userTable s d := by
  funext p
  unfold userTable
  split
  · exact h p (by unfold npages; omega)
  · rfl

theorem userTable_update {w : ℕ} (hp : p < 160)
    (h : ∀ q < npages, lookup t d q = Function.update (lookup s d) p w q) :
    userTable t d = Function.update (userTable s d) p w := by
  funext q
  rcases eq_or_ne q p with rfl | hne
  · rw [Function.update_self, userTable_of_lt hp, h q (by unfold npages; omega),
      Function.update_self]
  · rw [Function.update_of_ne hne]
    unfold userTable
    split
    · rw [h q (by unfold npages; omega), Function.update_of_ne hne]
    · rfl

theorem page_mul (p : ℕ) : User.page (pgsize * p) = p := by
  unfold User.page pgsize
  omega

section Freeing

variable (hF : Frames end_ frames)

include hF

/-- `mappages` of one user page. -/
theorem mappages_user (hC : Conserved frames s) (h : A.Holds s) (hf : (0, f) ∈ A.tables)
    (hp : p < 160) (hr : r < pointers) :
    mappages P.kalloc A.dir (pgsize * p) pgsize r perm s =
      if Present (lookup s A.dir p) then .error (.panic "remap")
      else .ok (true, store (f + 4 * p) (r ||| perm ||| pteP) s) := by
  rw [mappages, mappings_page (by omega) hr, mapLoop, h.paging.walk_user hf hp, ok_bind,
    h.paging.lookup_user hf hp]
  dsimp only
  rw [if_neg (h.paging.pte_ne_zero hf hF hC p)]
  rfl

/-- The body of `deallocuvm`. -/
theorem deallocPage_evolves (hp : p < 160) (hC : Conserved frames s) (h : A.Holds s)
    (hA : A.Ready) (hk : deallocPage P.kalloc end_ A.dir (pgsize * p) s = .ok t) :
    Evolves frames s A t (A.setUser p none) ∧ userTable t A.dir =
      if Present (userTable s A.dir p) then Function.update (userTable s A.dir) p 0
      else userTable s A.dir := by
  obtain ⟨f, hf⟩ := hA
  have hlookup := h.paging.lookup_user hf hp
  have hentry := h.entries p (by unfold npages; omega)
  rw [EntryOk, if_pos hp, hlookup] at hentry
  rw [deallocPage, h.paging.walk_user hf hp, ok_bind] at hk
  dsimp only at hk
  cases hu : A.user p with
  | none =>
    rw [hu] at hentry
    rw [if_neg fun hc => hentry hc.2] at hk
    obtain rfl := pure_ok.1 hk
    have hsame : A.setUser p none = A := by
      rw [Space.setUser, ← hu, Function.update_eq_self]
    rw [hsame, userTable_of_lt hp, hlookup, if_neg hentry]
    exact ⟨.refl hC h, rfl⟩
  | some v =>
    rw [hu] at hentry
    have hv := h.user_mem p v hu
    rw [if_pos ⟨h.paging.pte_ne_zero hf hF hC p, hentry.1⟩, hentry.2,
      if_neg (pointer_ne_zero hF hC hv)] at hk
    obtain ⟨s₁, hfree, hk⟩ := bind_ok.1 hk
    obtain rfl := pure_ok.1 hk
    have hvA : v ∈ A.frames := .inr ⟨p, hu⟩
    obtain ⟨hC₁, hc₁⟩ := Alloc.kfree_confined hF hC h.frames_subset hvA hfree
    have hvT := h.apart p v hu
    have hfA : f ∈ A.frames \ {v} :=
      ⟨Space.Holds.table_mem_frames hf, fun he =>
        hvT (Set.mem_singleton_iff.1 he ▸ List.mem_cons_of_mem _ (List.mem_map_of_mem hf))⟩
    obtain ⟨hC₂, hc₂⟩ := store_confined hF hC₁ hc₁.live hfA (i := p) (by omega) 0
    -- The entry is cleared before the frame is freed, as far as the space is concerned.
    have hcleared := h.store_user hF hC hf hp (x := none) (w := 0) (fun _ he => by cases he) (by
      rw [EntryOk, if_pos hp]
      exact not_present_zero)
    have hsub := h.frames_setUser_none hu
    have hwords : ∀ w ∈ A.dir :: A.tables.map Prod.snd, ∀ i < 1024,
        (store (f + 4 * p) 0 s₁).next (w + 4 * i) = (store (f + 4 * p) 0 s).next (w + 4 * i) := by
      intro w hw i hi
      have hne : w ≠ v := fun he => hvT (he ▸ hw)
      obtain ⟨s₁', hfree', -, -, hwords⟩ := kfree_spec hF hC hv
      obtain rfl := Except.ok.inj (hfree.symm.trans hfree')
      rw [store_next, store_next]
      by_cases he : w + 4 * i = f + 4 * p
      · rw [he, Function.update_self, Function.update_self]
      · rw [Function.update_of_ne he, Function.update_of_ne he]
        exact hwords w (h.paging.allocated w hw) hne i hi
    refine ⟨⟨hC₂, hcleared.congr (fun w hw => hc₁.live (hsub hw)) hwords,
      (hc₁.trans hc₂).mono hsub, rfl, id⟩, ?_⟩
    have hkept : ∀ q < npages,
        lookup (store (f + 4 * p) 0 s₁) A.dir q = lookup (store (f + 4 * p) 0 s) A.dir q :=
      (hcleared.paging.congr (t := store (f + 4 * p) 0 s₁) (fun w hw => hc₁.live (hsub (.inl hw)))
        hwords).2
    have hstore := (h.paging.store_user_entry hf hF hC hp 0).2
    rw [userTable_of_lt hp, hlookup, if_pos hentry.1]
    exact userTable_update hp fun q hq => (hkept q hq).trans (hstore q hq)

/-- The user pages that a list of pages leaves. -/
def Space.dropUser (A : Space) (ps : List ℕ) : Space :=
  { A with user := fun p => if p ∈ ps then none else A.user p }

/-- The loop of `deallocuvm`. -/
theorem deallocLoop_evolves (hps : ∀ p ∈ ps, p < 160) (hC : Conserved frames s) (h : A.Holds s)
    (hA : A.Ready)
    (hk : (ps.map (pgsize * ·)).foldlM (fun s a => deallocPage P.kalloc end_ A.dir a s) s = .ok t) :
    Evolves frames s A t (A.dropUser ps) ∧ ∀ m : User.Memory, m.pte = userTable s A.dir →
      ∃ m', User.deallocLoop (ps.map (pgsize * ·)) m = some m' ∧ m'.sz = m.sz ∧
        m'.pte = userTable t A.dir := by
  induction ps generalizing s A with
  | nil =>
    obtain rfl := pure_ok.1 hk
    have hsame : A.dropUser [] = A := by simp [Space.dropUser]
    rw [hsame]
    exact ⟨.refl hC h, fun m hm => ⟨m, rfl, rfl, hm⟩⟩
  | cons p ps ih =>
    obtain ⟨hp, hps⟩ := List.forall_mem_cons.1 hps
    rw [List.map_cons] at hk
    obtain ⟨s₁, hpage, hk⟩ := foldlM_cons_ok.1 hk
    obtain ⟨hev, htable⟩ := deallocPage_evolves hF hp hC h hA hpage
    obtain ⟨hev', huser⟩ := ih hps hev.conserved hev.holds (hev.ready hA) hk
    have hsame : (A.setUser p none).dropUser ps = A.dropUser (p :: ps) := by
      simp only [Space.dropUser, Space.setUser, Space.mk.injEq, true_and]
      funext q
      rcases eq_or_ne q p with rfl | hne
      · simp
      · simp [hne]
    rw [hsame] at hev'
    refine ⟨hev.trans hev', fun m hm => ?_⟩
    rw [List.map_cons, User.deallocLoop, page_mul, hm]
    split at htable
    · rename_i hpresent
      have hne : pteAddr (userTable s A.dir p) ≠ 0 := by
        rw [userTable_of_lt hp] at hpresent ⊢
        obtain ⟨v, hv⟩ := (h.present_iff hp).1 hpresent
        rw [h.pteAddr_eq hv]
        exact pointer_ne_zero hF hC (h.user_mem p v hv)
      rw [if_pos hpresent, if_neg hne]
      exact huser _ (by rw [User.Memory.setPte_pte, User.Memory.fill_pte, hm]; exact htable.symm)
    · rename_i habsent
      rw [if_neg habsent]
      exact huser m (hm.trans htable.symm)

omit hF in
/-- The pages of a loop over user memory. -/
theorem pagesBetween_eq (first last : ℕ) (hfirst : first ≤ usertop) (hlast : last ≤ usertop) :
    ∃ ps : List ℕ, pagesBetween first last = ps.map (pgsize * ·) ∧ ∀ p ∈ ps, p < 160 := by
  have hround : Alloc.pgroundup first = pgsize * ((first + 4095) / 4096) := by
    unfold Alloc.pgroundup pgsize pointers usertop at *
    omega
  refine ⟨List.range' ((first + 4095) / 4096)
    ((last + (pgsize - 1) - Alloc.pgroundup first) / pgsize), ?_, fun p hp => ?_⟩
  · rw [pagesBetween, List.range'_eq_map_range, List.map_map]
    refine List.map_congr_left fun i _ => ?_
    show Alloc.pgroundup first + pgsize * i = pgsize * ((first + 4095) / 4096 + i)
    rw [hround, Nat.mul_add]
  · rw [List.mem_range'_1, hround] at hp
    unfold pgsize usertop at *
    omega

/-- **`deallocuvm`**, for a size that the process can have. -/
theorem deallocuvm_evolves {oldsz newsz : ℕ} (hsz : oldsz ≤ usertop) (hC : Conserved frames s)
    (h : A.Holds s) (hA : A.Ready) (hk : deallocuvm P.kalloc end_ A.dir oldsz newsz s = .ok t) :
    ∃ A', Evolves frames s A t A' ∧ ∀ m : User.Memory, m.pte = userTable s A.dir →
      ∃ m', User.deallocuvm oldsz newsz m = some (if oldsz ≤ newsz then oldsz else newsz, m') ∧
        m'.sz = m.sz ∧ m'.pte = userTable t A.dir := by
  rw [deallocuvm] at hk
  split at hk
  · rename_i hle
    obtain rfl := pure_ok.1 hk
    refine ⟨A, .refl hC h, fun m hm => ⟨m, ?_, rfl, hm⟩⟩
    rw [User.deallocuvm, if_pos hle, if_pos hle]
  · rename_i hlt
    obtain ⟨ps, heq, hps⟩ := pagesBetween_eq newsz oldsz (by omega) hsz
    rw [heq] at hk
    obtain ⟨hev, huser⟩ := deallocLoop_evolves hF hps hC h hA hk
    refine ⟨_, hev, fun m hm => ?_⟩
    obtain ⟨m', hloop, hsz', htable⟩ := huser m hm
    refine ⟨m', ?_, hsz', htable⟩
    rw [User.deallocuvm, if_neg hlt, if_neg hlt, heq, hloop]
    rfl

/-- **`freevm`** gives every frame back. -/
theorem freevm_confined (hC : Conserved frames s) (h : A.Holds s) (hA : A.Ready)
    (hk : freevm P.kalloc end_ A.dir s = .ok t) :
    Conserved frames t ∧ Confined frameMemory s A.frames t ∅ := by
  have hdir := h.paging.dir_mem
  rw [freevm, if_neg (pointer_ne_zero hF hC hdir), deallocuvm, if_neg (by decide)] at hk
  obtain ⟨s₁, h₁, hk⟩ := bind_ok.1 hk
  obtain ⟨s₂, h₂, h₃⟩ := bind_ok.1 hk
  obtain ⟨ps, heq, hps⟩ := pagesBetween_eq 0 usertop (by decide) le_rfl
  rw [heq] at h₁
  have hev := (deallocLoop_evolves hF hps hC h hA h₁).1
  have hpaging := hev.holds.paging
  obtain ⟨s₂', h₂', hC₂, hal₂, hwords₂⟩ := freeTables_spec hF
    (fun j (hj : j ∈ List.range npdentries) => List.mem_range.1 hj) List.nodup_range hev.conserved
    hpaging.entries (fun j g hg _ => hpaging.table_mem hg) hpaging.dir_mem hpaging.nodup
  obtain rfl := Except.ok.inj (h₂.symm.trans h₂')
  have hd₂ : A.dir ∈ s₂.allocated := (hal₂ A.dir).2 ⟨hpaging.dir_mem, fun j _ hj =>
    hpaging.table_ne hj rfl⟩
  have hc₂ : Confined frameMemory s₁ (A.dropUser ps).frames s₂ {A.dir} := by
    refine ⟨fun v hv => Set.mem_singleton_iff.1 hv ▸ hd₂, fun v hv _ => ?_, fun v hv hvA => ?_,
      fun v hv hvA => Alloc.content_eq_iff.2 fun i hi => ?_⟩
    · exact .inl (Set.mem_singleton_iff.1 hv ▸ List.mem_cons_self)
    · exact (hal₂ v).2 ⟨hv, fun j _ hj => hvA (Space.Holds.table_mem_frames hj)⟩
    · exact hwords₂ v hv (fun hm => hvA (.inl (List.mem_cons_of_mem _ hm))) i hi
  obtain ⟨hCt, hc₃⟩ := Alloc.kfree_confined hF hC₂ hc₂.live (Set.mem_singleton A.dir) h₃
  exact ⟨hCt, ((hev.confined.trans hc₂).trans hc₃).mono (Set.empty_subset _)⟩

end Freeing

section Operations

variable (hP : P = partA ∨ P = partB) (hF : Frames end_ frames)

include hP hF

/-- `walkpgdir` with `create`. -/
theorem walk_create (hC : Conserved frames s) (h : A.Holds s) {a pte : ℕ} (ha : a < pointers)
    (hk : walkpgdir P.kalloc A.dir a true s = .ok (pte, t)) :
    ∃ new, Evolves frames s A t (A.addTables new) ∧
      (pte ≠ 0 → ∃ f, (page a / 1024, f) ∈ (A.addTables new).tables ∧
        pte = f + 4 * (page a % 1024)) := by
  by_cases hkey : page a / 1024 ∈ A.tables.map Prod.fst
  · obtain ⟨⟨j, f⟩, hf, rfl : j = page a / 1024⟩ := List.mem_map.1 hkey
    rw [h.paging.walk ha hf] at hk
    obtain ⟨rfl, rfl⟩ := Prod.mk.inj (Except.ok.inj hk)
    refine ⟨[], ?_, fun _ => ⟨f, ?_, rfl⟩⟩
    · rw [addTables_nil]
      exact .refl hC h
    · rwa [addTables_nil]
  · have hlt : page a / 1024 < 1024 := by
      unfold page pgsize pointers at *
      omega
    rw [walkpgdir, pdx_eq ha, if_neg (h.paging.entries.absent _ hlt hkey), if_pos rfl, ptx_eq] at hk
    obtain ⟨⟨r, s₁⟩, hr, hk⟩ := bind_ok.1 hk
    obtain ⟨hC₁, h₁, hc₁, hnew⟩ := kalloc_space hP hF hC h hr
    dsimp only at hk
    split at hk
    · rename_i h0
      obtain ⟨rfl, rfl⟩ := Prod.mk.inj (pure_ok.1 hk)
      refine ⟨[], ?_, fun hne => absurd rfl hne⟩
      rw [addTables_nil]
      exact ⟨hC₁, h₁, hc₁.mono Set.subset_union_right, rfl, id⟩
    · rename_i h0
      obtain ⟨rfl, rfl⟩ := Prod.mk.inj (pure_ok.1 hk)
      obtain ⟨hrs₁, -, hrA⟩ := hnew h0
      have hown := hc₁.live
      obtain ⟨hC₂, hc₂⟩ := clear_confined hF hC₁ hown (f := r) (.inl ⟨rfl, h0⟩)
      obtain ⟨hC₃, hc₃⟩ := store_confined hF hC₂ hc₂.live (f := A.dir)
        (.inr (.inl List.mem_cons_self)) hlt (r ||| pteP ||| pteW ||| pteU)
      refine ⟨[(page a / 1024, r)], ⟨hC₃, h₁.new_table hF hC₁ hlt hkey hrs₁ hrA, ?_, rfl, ?_⟩,
        fun _ => ⟨r, by simp [Space.addTables], rfl⟩⟩
      · refine ((hc₁.trans hc₂).trans hc₃).mono ?_
        rintro v (hv | hv)
        · simp only [Space.addTables, List.map_append, List.map_cons, List.map_nil, List.mem_cons,
            List.mem_append, List.not_mem_nil, or_false] at hv
          rcases hv with hv | hv | rfl
          · exact .inr (.inl (hv ▸ List.mem_cons_self))
          · exact .inr (.inl (List.mem_cons_of_mem _ hv))
          · exact .inl ⟨rfl, h0⟩
        · exact .inr (.inr hv)
      · rintro ⟨f, hf⟩
        exact ⟨f, List.mem_append_left _ hf⟩

/-- The loop of `mappages` on pages of the kernel part. -/
theorem mapLoop_evolves (hms : ∀ m ∈ ms, m.Kernel) (hC : Conserved frames s) (h : A.Holds s)
    (hk : mapLoop P.kalloc A.dir ms s = .ok (b, t)) :
    ∃ new, Evolves frames s A t (A.addTables new) ∧
      (b = true → ∀ m ∈ ms, page m.a / 1024 ∈ (A.addTables new).tables.map Prod.fst) := by
  induction ms generalizing s A with
  | nil =>
    obtain ⟨rfl, rfl⟩ := Prod.mk.inj (pure_ok.1 hk)
    refine ⟨[], ?_, by simp⟩
    rw [addTables_nil]
    exact .refl hC h
  | cons m ms ih =>
    obtain ⟨hm, hms⟩ := List.forall_mem_cons.1 hms
    obtain ⟨⟨pte, s₁⟩, hwalk, hk⟩ := bind_ok.1 hk
    obtain ⟨new, hev, hpte⟩ := walk_create hP hF hC h hm.lt hwalk
    dsimp only at hk
    split at hk
    · obtain ⟨rfl, rfl⟩ := Prod.mk.inj (pure_ok.1 hk)
      exact ⟨new, hev, by simp⟩
    rename_i h0
    obtain ⟨f, hf, rfl⟩ := hpte h0
    split at hk
    · cases hk
    obtain ⟨hC₂, hc₂⟩ := store_confined hF hev.conserved hev.holds.frames_subset
      (Space.Holds.table_mem_frames hf) (Nat.mod_lt (page m.a) (by decide))
      (m.pa ||| m.perm ||| pteP)
    have h₂ := hev.holds.store_kernel hF hev.conserved hf hm.above
      fun hw => hm.supervisor hw.2
    obtain ⟨new', hev', hkeys⟩ := ih hms hC₂ h₂ hk
    have hstep : Evolves frames s₁ (A.addTables new) _ (A.addTables new) :=
      ⟨hC₂, h₂, hc₂, rfl, id⟩
    have happ : (A.addTables new).addTables new' = A.addTables (new ++ new') := by
      simp [Space.addTables]
    rw [happ] at hev' hkeys
    refine ⟨new ++ new', (hev.trans hstep).trans hev', fun hb => List.forall_mem_cons.2
      ⟨?_, hkeys hb⟩⟩
    rw [← happ]
    exact List.mem_map_of_mem (f := Prod.fst) (List.mem_append_left _ hf)

/-- **`setupkvm`** makes an address space without user pages, or returns `NULL`. -/
theorem setupkvm_evolves (hL : Layout data) (hC : Conserved frames s)
    (hk : setupkvm P.kalloc data s = .ok (d, t)) :
    Conserved frames t ∧ (d = 0 → Confined frameMemory s ∅ t ∅) ∧
      (d ≠ 0 → ∃ T, Space.Holds t ⟨d, T, fun _ => none⟩ ∧ Space.Ready ⟨d, T, fun _ => none⟩ ∧
        Confined frameMemory s ∅ t (Space.frames ⟨d, T, fun _ => none⟩)) := by
  obtain ⟨⟨d', s₁⟩, hd, hk⟩ := bind_ok.1 hk
  have hc := Alloc.kalloc_confined hP hF hC hd
  obtain ⟨hC₁, hcase⟩ := Alloc.kalloc_ok hP hF hC hd
  dsimp only at hk
  split at hk
  · obtain ⟨rfl, rfl⟩ := Prod.mk.inj (pure_ok.1 hk)
    exact ⟨hC₁, fun _ => hc.mono (Set.empty_subset _), fun hne => absurd rfl hne⟩
  rename_i h0
  obtain ⟨⟨ok, s₂⟩, hmap, hk⟩ := bind_ok.1 hk
  obtain ⟨hd0, rfl⟩ := Prod.mk.inj (pure_ok.1 hk)
  rw [kmapLoop_eq] at hmap
  have hd₁ : d' ∈ s₁.allocated := hc.live ⟨rfl, h0⟩
  obtain ⟨hpaging, hlookup⟩ := Paging.empty hd₁
  obtain ⟨hCc, hcc⟩ := clear_confined hF hC₁ hc.live (f := d') ⟨rfl, h0⟩
  let A : Space := ⟨d', [], fun _ => none⟩
  have hA : A.Holds (clear d' s₁) := by
    refine ⟨hpaging, nofun, nofun, nofun, nofun, fun p hp => ?_⟩
    rw [hlookup p hp, EntryOk]
    split
    · exact not_present_zero
    · exact fun hw => not_present_zero hw.1
  obtain ⟨new, hev, hkeys⟩ := mapLoop_evolves hP hF (A := A) (kernelMappings_kernel hL) hCc hA hmap
  have hown : A.frames = {v | v = d' ∧ d' ≠ 0} := by
    ext v
    simp [Space.frames, A, h0]
  have hconf := hc.trans hcc
  rw [← hown] at hconf
  refine ⟨hev.conserved, fun _ => (hconf.trans hev.confined).mono (Set.empty_subset _),
    fun hne => ⟨new, ?_⟩⟩
  cases ok with
  | false => exact absurd hd0.symm hne
  | true =>
    obtain rfl : d' = d := hd0
    obtain ⟨⟨j, f⟩, hf, rfl : j = 160 / 1024⟩ := List.mem_map.1 (by
      have hmem : 160 ∈ pages (kernelMappings (kmap data)) := (mem_pages_kernel hL).2 (by omega)
      obtain ⟨m, hm, hm160⟩ := List.mem_map.1 hmem
      have := hkeys rfl m hm
      rwa [hm160] at this)
    exact ⟨hev.holds, ⟨f, hf⟩, hconf.trans hev.confined⟩

/-! ### New frames -/

/-- The frame that `kalloc` returned has been filled. -/
theorem filled_frame (hC : Conserved frames s) (h : A.Holds s) (hk : P.kalloc s = .ok (r, s₁))
    (hr0 : r ≠ 0) (next : ℕ → ℕ) (hnext : ∀ a, ¬(r ≤ a ∧ a < r + pgsize) → next a = s₁.next a) :
    Conserved frames { s₁ with next := next } ∧ A.Holds { s₁ with next := next } ∧
      Confined frameMemory s A.frames { s₁ with next := next } ({v | v = r ∧ r ≠ 0} ∪ A.frames) ∧
      ∀ q < npages, lookup { s₁ with next := next } A.dir q = lookup s A.dir q := by
  obtain ⟨hC₁, h₁, hc₁, hnew⟩ := kalloc_space hP hF hC h hk
  obtain ⟨hrs₁, -, hrA⟩ := hnew hr0
  have hsingle : {r} ⊆ frameMemory.live s₁ := fun v hv => Set.mem_singleton_iff.1 hv ▸ hrs₁
  have hdisjoint : ∀ v ∈ A.frames, v ∉ ({r} : Set ℕ) := fun v hv hvr =>
    hrA (Set.mem_singleton_iff.1 hvr ▸ hv)
  obtain ⟨hC₂, hc₂⟩ := Alloc.writes_confined hF hC₁ hsingle next
    fun a ha => hnext a (ha r (Set.mem_singleton r))
  obtain ⟨-, hc₂'⟩ := Alloc.writes_confined hF hC₁ hc₁.live next
    fun a ha => hnext a (ha r (.inl ⟨rfl, hr0⟩))
  refine ⟨hC₂, h₁.others hc₂ hdisjoint, hc₁.trans hc₂', fun q hq => ?_⟩
  rw [h₁.lookup_others hc₂ hdisjoint q hq]
  exact h.lookup_others (Alloc.kalloc_confined hP hF hC hk) (fun v _ => Set.notMem_empty v) q hq

/-- `mappages` of the frame that `kalloc` returned. -/
theorem mappages_frame (hC : Conserved frames s) (h : A.Holds s) (hf : (0, f) ∈ A.tables)
    (hp : p < 160) (hk : P.kalloc s = .ok (r, s₁)) (hr0 : r ≠ 0) (next : ℕ → ℕ)
    (hnext : ∀ a, ¬(r ≤ a ∧ a < r + pgsize) → next a = s₁.next a) (perm : ℕ) :
    mappages P.kalloc A.dir (pgsize * p) pgsize r perm { s₁ with next := next } =
      if Present (lookup s A.dir p) then .error (.panic "remap")
      else .ok (true, store (f + 4 * p) (r ||| perm ||| pteP) { s₁ with next := next }) := by
  obtain ⟨hC₁, -, -, hnew⟩ := kalloc_space hP hF hC h hk
  obtain ⟨hC₂, h₂, -, hlookup⟩ := filled_frame hP hF hC h hk hr0 next hnext
  have hrlt : r < pointers := by
    have := (hF.valid r (mem_frames hC₁ (hnew hr0).1)).2.2
    unfold Alloc.phystop pointers at *
    omega
  rw [mappages_user hF hC₂ h₂ hf hp hrlt, hlookup p (by unfold npages; omega)]

/-- One turn of a loop that maps new frames. -/
theorem mapFrame (hC : Conserved frames s) (h : A.Holds s) (hf : (0, f) ∈ A.tables)
    (hp : p < 160) (hk : P.kalloc s = .ok (r, s₁)) (hr0 : r ≠ 0) (next : ℕ → ℕ)
    (hnext : ∀ a, ¬(r ≤ a ∧ a < r + pgsize) → next a = s₁.next a) (hperm : perm < pgsize)
    (hm : mappages P.kalloc A.dir (pgsize * p) pgsize r perm { s₁ with next := next } =
      .ok (b, t)) :
    b = true ∧ A.user p = none ∧ Evolves frames s A t (A.setUser p (some r)) ∧
      (∀ q < npages, lookup t A.dir q =
        Function.update (lookup s A.dir) p (r ||| perm ||| pteP) q) ∧
      (∀ i < 1024, t.next (r + 4 * i) = next (r + 4 * i)) ∧
      ∀ v ∈ s.allocated, v ∉ A.dir :: A.tables.map Prod.snd →
        ∀ i < 1024, t.next (v + 4 * i) = s.next (v + 4 * i) := by
  obtain ⟨hC₁, h₁, -, hnew⟩ := kalloc_space hP hF hC h hk
  obtain ⟨hrs₁, hrs, hrA⟩ := hnew hr0
  obtain ⟨hC₂, h₂, hc₂, hlookup⟩ := filled_frame hP hF hC h hk hr0 next hnext
  rw [mappages_frame hP hF hC h hf hp hk hr0 next hnext perm] at hm
  split at hm
  · cases hm
  rename_i habsent
  obtain ⟨rfl, rfl⟩ := Prod.mk.inj (Except.ok.inj hm)
  have huser : A.user p = none := by
    rw [h.present_iff hp] at habsent
    exact Option.eq_none_iff_forall_not_mem.2 fun v hv => habsent ⟨v, hv⟩
  have hfA : f ∈ A.frames := Space.Holds.table_mem_frames hf
  obtain ⟨hC₃, hc₃⟩ := store_confined hF hC₂ hc₂.live (.inr hfA) (i := p) (by omega)
    (r ||| perm ||| pteP)
  have hrf : r ≠ f := fun he => hrA (he ▸ hfA)
  have hword : ∀ v ∈ s₁.allocated, v ≠ f → ∀ i < 1024, v + 4 * i ≠ f + 4 * p :=
    fun v hv hne i hi he => hne (word_inj (aligned hF hC₁ hv)
      (aligned hF hC₁ (h₁.paging.table_mem hf)) hi (by omega) he).1
  refine ⟨rfl, huser, ⟨hC₃, ?_, (hc₂.trans hc₃).mono ?_, rfl, id⟩, fun q hq => ?_,
    fun i hi => ?_, fun v hv hvA i hi => ?_⟩
  rotate_left 2
  · rw [(h₂.paging.store_user_entry hf hF hC₂ hp (r ||| perm ||| pteP)).2 q hq]
    rcases eq_or_ne q p with rfl | hne
    · rw [Function.update_self, Function.update_self]
    · rw [Function.update_of_ne hne, Function.update_of_ne hne, hlookup q hq]
  · rw [store_next, Function.update_of_ne (hword r hrs₁ hrf i hi)]
  · have hvs₁ : v ∈ s₁.allocated :=
      (Alloc.kalloc_confined hP hF hC hk).kept v hv (Set.notMem_empty v)
    have hvf : v ≠ f := fun he => hvA (he ▸ List.mem_cons_of_mem _ (List.mem_map_of_mem hf))
    have hvr : v ≠ r := fun he => hrs (he ▸ hv)
    rw [store_next, Function.update_of_ne (hword v hvs₁ hvf i hi)]
    show next (v + 4 * i) = _
    rw [hnext _ (Alloc.word_outside hF hC₁ hrs₁ hvs₁ hvr hi), Alloc.kalloc_next hP hF hC hk hv hi]
  · refine h₂.store_user hF hC₂ hf hp (fun v hv => ?_) ?_
    · obtain rfl := Option.some.inj hv
      refine ⟨hrs₁, fun hm => hrA (.inl hm), fun q hq => absurd (.inr ⟨q, hq⟩) hrA⟩
    · rw [EntryOk, if_pos hp, Nat.or_assoc]
      exact ⟨present_or _ _ (present_or _ _ (by decide)),
        pteAddr_or (aligned hF hC₁ hrs₁) (Nat.or_lt_two_pow (n := 12) hperm (by decide))⟩
  · rintro v (hv | ⟨q, hq⟩)
    · exact .inr (.inl hv)
    · change Function.update A.user p (some r) q = some v at hq
      rcases eq_or_ne q p with rfl | hne
      · rw [Function.update_self] at hq
        exact .inl ⟨(Option.some.inj hq).symm, hr0⟩
      · rw [Function.update_of_ne hne] at hq
        exact .inr (.inr ⟨q, hq⟩)

omit hP hF in
/-- A new frame, for user memory. -/
theorem fresh_cons {m m₁ : User.Memory} {w : ℕ} {fs : List ℕ} (halign : r % pgsize = 0)
    (habsent : ¬Present (m.pte p)) (hpte : m₁.pte = Function.update m.pte p w)
    (hw : Present w ∧ pteAddr w = r) (hfresh : User.Fresh fs m₁)
    (hr : ∀ q, Present (m.pte q) → pteAddr (m.pte q) ≠ r) : User.Fresh (r :: fs) m := by
  have hself : m₁.pte p = w := by rw [hpte, Function.update_self]
  have hold : ∀ q, Present (m.pte q) → m₁.pte q = m.pte q := by
    intro q hq
    have hne : q ≠ p := by
      rintro rfl
      exact habsent hq
    rw [hpte, Function.update_of_ne hne]
  refine ⟨List.forall_mem_cons.2 ⟨halign, hfresh.aligned⟩,
    List.nodup_cons.2 ⟨fun hmem => ?_, hfresh.nodup⟩,
    List.forall_mem_cons.2 ⟨hr, fun v hv q hq => ?_⟩⟩
  · exact hfresh.unmapped r hmem p (hself ▸ hw.1) (hself ▸ hw.2)
  · rw [← hold q hq]
    exact hfresh.unmapped v hv q ((hold q hq).symm ▸ hq)

/-- The loop of `allocuvm`. -/
theorem allocLoop_evolves (hps : ∀ p ∈ ps, p < 160) (hC : Conserved frames s) (h : A.Holds s)
    (hA : A.Ready) (hk : allocLoop P.kalloc A.dir (ps.map (pgsize * ·)) s = .ok (b, t)) :
    ∃ A', Evolves frames s A t A' ∧ ∀ m : User.Memory, m.pte = userTable s A.dir →
      ∃ fs m', User.Fresh fs m ∧ User.allocLoop (ps.map (pgsize * ·)) fs m = some (b, m') ∧
        m'.sz = m.sz ∧ m'.pte = userTable t A.dir := by
  have hnone : ∀ m : User.Memory, User.Fresh [] m := fun m => ⟨by simp, .nil, by simp⟩
  induction ps generalizing s A with
  | nil =>
    obtain ⟨rfl, rfl⟩ := Prod.mk.inj (pure_ok.1 hk)
    exact ⟨A, .refl hC h, fun m hm => ⟨[], m, hnone m, rfl, rfl, hm⟩⟩
  | cons p ps ih =>
    obtain ⟨hp, hps⟩ := List.forall_mem_cons.1 hps
    rw [List.map_cons, allocLoop] at hk
    obtain ⟨⟨r, s₁⟩, hr, hk⟩ := bind_ok.1 hk
    dsimp only at hk
    split at hk
    · obtain ⟨rfl, rfl⟩ := Prod.mk.inj (pure_ok.1 hk)
      obtain ⟨hC₁, h₁, hc₁, -⟩ := kalloc_space hP hF hC h hr
      have hlookup := h.lookup_others (Alloc.kalloc_confined hP hF hC hr)
        fun v _ => Set.notMem_empty v
      exact ⟨A, ⟨hC₁, h₁, hc₁.mono Set.subset_union_right, rfl, id⟩, fun m hm =>
        ⟨[], m, hnone m, rfl, rfl, hm.trans (userTable_congr hlookup).symm⟩⟩
    rename_i hr0
    obtain ⟨⟨b', s₂⟩, hmap, hk⟩ := bind_ok.1 hk
    obtain ⟨f, hf⟩ := hA
    obtain ⟨-, huser, hev, hlookup, -⟩ := mapFrame hP hF hC h hf hp hr hr0 (clear r s₁).next
      (fun a ha => if_neg ha) (by decide) hmap
    obtain ⟨A', hev', hrest⟩ := ih hps hev.conserved hev.holds (hev.ready ⟨f, hf⟩) hk
    refine ⟨A', hev.trans hev', fun m hm => ?_⟩
    -- What the new frame is to user memory.
    obtain ⟨hC₁, -, -, hnew⟩ := kalloc_space hP hF hC h hr
    obtain ⟨hrs₁, -, hrA⟩ := hnew hr0
    have halign : r % pgsize = 0 := aligned hF hC₁ hrs₁
    have habsent : ¬Present (m.pte p) := by
      rw [hm, userTable_of_lt hp, h.present_iff hp, huser]
      simp
    obtain ⟨m₁, hm₁⟩ : ∃ m₁, m₁ = (m.fill r 0).setPte p (r ||| (pteW ||| pteU) ||| pteP) := ⟨_, rfl⟩
    have hpte : m₁.pte = Function.update m.pte p (r ||| (pteW ||| pteU) ||| pteP) := by
      rw [hm₁, User.Memory.setPte_pte, User.Memory.fill_pte]
    obtain ⟨fs, m', hfresh, hloop, hsz, htable⟩ := hrest m₁ (by
      rw [hpte, hm]
      exact (userTable_update hp hlookup).symm)
    have hentry : Present (r ||| (pteW ||| pteU) ||| pteP) ∧
        pteAddr (r ||| (pteW ||| pteU) ||| pteP) = r :=
      ⟨present_or _ _ (by decide), by rw [Nat.or_assoc]; exact pteAddr_or halign (by decide)⟩
    refine ⟨r :: fs, m', ?_, ?_, hsz.trans (hm₁ ▸ rfl), htable⟩
    · exact fresh_cons halign habsent hpte hentry hfresh fun q hq => by
        rw [hm] at hq ⊢
        have hq160 : q < 160 := by
          by_contra hge
          rw [userTable, if_neg hge] at hq
          exact not_present_zero hq
        rw [userTable_of_lt hq160] at hq ⊢
        obtain ⟨v, hv⟩ := (h.present_iff hq160).1 hq
        rw [h.pteAddr_eq hv]
        exact fun he => hrA (.inr ⟨q, he ▸ hv⟩)
    · rw [List.map_cons, User.allocLoop, page_mul, if_neg habsent, ← hm₁]
      exact hloop

/-- **`allocuvm`**. -/
theorem allocuvm_evolves {oldsz newsz : ℕ} (hC : Conserved frames s) (h : A.Holds s) (hA : A.Ready)
    (hk : allocuvm P.kalloc end_ A.dir oldsz newsz s = .ok (r, t)) :
    ∃ A', Evolves frames s A t A' ∧ ∀ m : User.Memory, m.pte = userTable s A.dir →
      ∃ fs m', User.Fresh fs m ∧ User.allocuvm oldsz newsz fs m = some (r, m') ∧
        m'.sz = m.sz ∧ m'.pte = userTable t A.dir := by
  have hnone : ∀ m : User.Memory, User.Fresh [] m := fun m => ⟨by simp, .nil, by simp⟩
  rw [allocuvm] at hk
  split at hk
  · rename_i htop
    obtain ⟨rfl, rfl⟩ := Prod.mk.inj (pure_ok.1 hk)
    exact ⟨A, .refl hC h, fun m hm => ⟨[], m, hnone m, if_pos htop, rfl, hm⟩⟩
  split at hk
  · rename_i htop hlt
    obtain ⟨rfl, rfl⟩ := Prod.mk.inj (pure_ok.1 hk)
    refine ⟨A, .refl hC h, fun m hm => ⟨[], m, hnone m, ?_, rfl, hm⟩⟩
    rw [User.allocuvm, if_neg htop, if_pos hlt]
  rename_i htop hlt
  obtain ⟨⟨ok, s₁⟩, hloop, hk⟩ := bind_ok.1 hk
  obtain ⟨ps, heq, hps⟩ := pagesBetween_eq oldsz newsz (by omega) (by omega)
  rw [heq] at hloop
  obtain ⟨A', hev, huser⟩ := allocLoop_evolves hP hF hps hC h hA hloop
  dsimp only at hk
  split at hk
  · rename_i hok
    obtain ⟨rfl, rfl⟩ := Prod.mk.inj (pure_ok.1 hk)
    refine ⟨A', hev, fun m hm => ?_⟩
    obtain ⟨fs, m', hfresh, hloop', hsz, htable⟩ := huser m hm
    refine ⟨fs, m', hfresh, ?_, hsz, htable⟩
    rw [User.allocuvm, if_neg htop, if_neg hlt, heq, hloop', Option.bind_eq_bind, Option.bind_some]
    exact if_pos hok
  · rename_i hok
    obtain ⟨s₂, hdealloc, hk⟩ := bind_ok.1 hk
    obtain ⟨rfl, rfl⟩ := Prod.mk.inj (pure_ok.1 hk)
    rw [← hev.dir] at hdealloc
    obtain ⟨A'', hev', huser'⟩ := deallocuvm_evolves hF (by omega) hev.conserved hev.holds
      (hev.ready hA) hdealloc
    refine ⟨A'', hev.trans hev', fun m hm => ?_⟩
    obtain ⟨fs, m₁, hfresh, hloop', hsz, htable⟩ := huser m hm
    rw [← hev.dir] at htable
    obtain ⟨m₂, hdealloc', hsz', htable'⟩ := huser' m₁ htable
    rw [hev.dir] at htable'
    refine ⟨fs, m₂, hfresh, ?_, hsz'.trans hsz, htable'⟩
    rw [User.allocuvm, if_neg htop, if_neg hlt, heq, hloop', Option.bind_eq_bind, Option.bind_some]
    dsimp only
    rw [if_neg hok, hdealloc']
    rfl

/-- The entry that the copy of a page gets. -/
def copyEntry (mem pte : ℕ) : ℕ := mem ||| (pte &&& pteW ||| pteU) ||| pteP

/-- One turn of the loop of `copyuvm`: the frames are used up, or the page is copied. -/
theorem copyLoop_turn {pgdir : ℕ} {is : List ℕ} (hp : p < 160) (hC : Conserved frames s)
    (h : A.Holds s) (hA : A.Ready)
    (hk : copyLoop P.kalloc pgdir A.dir (pgsize * p :: is) s = .ok (b, t)) :
    Present (lookup s pgdir p) ∧ (b = false ∧ Evolves frames s A t A ∨ ∃ r u,
      copyLoop P.kalloc pgdir A.dir is u = .ok (b, t) ∧ A.user p = none ∧
      Evolves frames s A u (A.setUser p (some r)) ∧
      (∀ q < npages, lookup u A.dir q =
        Function.update (lookup s A.dir) p (copyEntry r (lookup s pgdir p)) q) ∧
      (∀ v ∈ s.allocated, pteAddr (lookup s pgdir p) = v →
        ∀ i < 1024, u.next (r + 4 * i) = s.next (v + 4 * i)) ∧
      ∀ v ∈ s.allocated, v ∉ A.dir :: A.tables.map Prod.snd →
        ∀ i < 1024, u.next (v + 4 * i) = s.next (v + 4 * i)) := by
  rw [copyLoop, walkpgdir_false, ok_bind, pdx_eq (user_lt_pointers hp), ptx_eq,
    page_pgsize_mul] at hk
  by_cases hpde : Present (s.next (pgdir + 4 * (p / 1024)))
  swap
  · rw [if_neg hpde] at hk
    cases hk
  have hlookup : lookup s pgdir p =
      s.next (pteAddr (s.next (pgdir + 4 * (p / 1024))) + 4 * (p % 1024)) := if_pos hpde
  rw [if_pos hpde] at hk
  dsimp only at hk
  split at hk
  · cases hk
  rw [← hlookup] at hk
  split at hk
  · cases hk
  rename_i hpresent
  refine ⟨not_not.1 hpresent, ?_⟩
  obtain ⟨⟨r, s₁⟩, hr, hk⟩ := bind_ok.1 hk
  dsimp only at hk
  split at hk
  · obtain ⟨rfl, rfl⟩ := Prod.mk.inj (pure_ok.1 hk)
    obtain ⟨hC₁, h₁, hc₁, -⟩ := kalloc_space hP hF hC h hr
    exact .inl ⟨rfl, hC₁, h₁, hc₁.mono Set.subset_union_right, rfl, id⟩
  rename_i hr0
  obtain ⟨⟨b', u⟩, hmap, hk⟩ := bind_ok.1 hk
  obtain ⟨f, hf⟩ := hA
  have hperm : lookup s pgdir p &&& pteW ||| pteU < pgsize :=
    Nat.or_lt_two_pow (n := 12) (lt_of_le_of_lt Nat.and_le_right (by decide)) (by decide)
  obtain ⟨rfl, huser, hev, hentries, hcontent, hrest⟩ := mapFrame hP hF hC h hf hp hr hr0
    (copyPage r (pteAddr (lookup s pgdir p)) s₁).next (fun a ha => if_neg ha) hperm hmap
  refine .inr ⟨r, u, hk, huser, hev, hentries, fun v hv he i hi => ?_, hrest⟩
  rw [hcontent i hi, ← Alloc.kalloc_next hP hF hC hr hv hi]
  have hin : r ≤ r + 4 * i ∧ r + 4 * i < r + pgsize := by
    unfold pgsize
    omega
  show (if r ≤ r + 4 * i ∧ r + 4 * i < r + pgsize then _ else _) = _
  rw [if_pos hin, he, Nat.add_sub_cancel_left]

/-- The loop of `copyuvm`, for the copy. -/
theorem copyLoop_evolves {pgdir : ℕ} (hps : ∀ p ∈ ps, p < 160) (hC : Conserved frames s)
    (h : A.Holds s) (hA : A.Ready)
    (hk : copyLoop P.kalloc pgdir A.dir (ps.map (pgsize * ·)) s = .ok (b, t)) :
    ∃ A', Evolves frames s A t A' := by
  induction ps generalizing s A with
  | nil =>
    obtain ⟨-, rfl⟩ := Prod.mk.inj (pure_ok.1 hk)
    exact ⟨A, .refl hC h⟩
  | cons p ps ih =>
    obtain ⟨hp, hps⟩ := List.forall_mem_cons.1 hps
    obtain ⟨-, ⟨-, hev⟩ | ⟨r, u, hk, -, hev, -⟩⟩ := copyLoop_turn hP hF hp hC h hA hk
    · exact ⟨A, hev⟩
    · obtain ⟨A', hev'⟩ := ih hps hev.conserved hev.holds (hev.ready hA) hk
      exact ⟨A', hev.trans hev'⟩

/-- **`copyuvm`** makes an address space, or returns `NULL` and keeps no frame of it. -/
theorem copyuvm_evolves (hL : Layout data) {pgdir sz : ℕ} (hsz : sz ≤ usertop)
    (hC : Conserved frames s) (hk : copyuvm P.kalloc data end_ pgdir sz s = .ok (d, t)) :
    Conserved frames t ∧ (d = 0 → Confined frameMemory s ∅ t ∅) ∧
      (d ≠ 0 → ∃ A : Space, A.dir = d ∧ A.Holds t ∧ A.Ready ∧
        Confined frameMemory s ∅ t A.frames) := by
  obtain ⟨⟨d', s₁⟩, hsetup, hk⟩ := bind_ok.1 hk
  obtain ⟨hC₁, hnull, hnew⟩ := setupkvm_evolves hP hF hL hC hsetup
  dsimp only at hk
  split at hk
  · rename_i h0
    obtain ⟨rfl, rfl⟩ := Prod.mk.inj (pure_ok.1 hk)
    exact ⟨hC₁, fun _ => hnull h0, fun hne => absurd rfl hne⟩
  rename_i h0
  obtain ⟨T, hA, hready, hc₁⟩ := hnew h0
  obtain ⟨⟨ok, s₂⟩, hloop, hk⟩ := bind_ok.1 hk
  obtain ⟨ps, heq, hps⟩ := pagesBetween_eq 0 sz (Nat.zero_le _) hsz
  rw [heq] at hloop
  obtain ⟨A', hev⟩ := copyLoop_evolves hP hF (A := ⟨d', T, fun _ => none⟩) hps hC₁ hA hready hloop
  have hdir : A'.dir = d' := hev.dir
  dsimp only at hk
  split at hk
  · obtain ⟨rfl, rfl⟩ := Prod.mk.inj (pure_ok.1 hk)
    exact ⟨hev.conserved, fun hd => absurd hd h0, fun _ =>
      ⟨A', hdir, hev.holds, hev.ready hready, hc₁.trans hev.confined⟩⟩
  · obtain ⟨s₃, hfree, hk⟩ := bind_ok.1 hk
    obtain ⟨rfl, rfl⟩ := Prod.mk.inj (pure_ok.1 hk)
    rw [← hdir] at hfree
    obtain ⟨hC₃, hc₃⟩ := freevm_confined hF hev.conserved hev.holds (hev.ready hready) hfree
    exact ⟨hC₃, fun _ => (hc₁.trans hev.confined).trans hc₃, fun hne => absurd rfl hne⟩

end Operations

end OsProjects.Vm
