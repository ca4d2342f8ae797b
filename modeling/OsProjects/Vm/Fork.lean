import OsProjects.Vm.Evolution

/-!
# Fork without memory

fork takes a frame for the kernel stack, thirteen for the kernel part of the page directory, and
one for each user page.  `Exhausts` says that one of these calls of `kalloc` returns `NULL`.  What
fork has taken by then is given back, except by `setupkvm` (`leaksNothing_iff`).
-/

namespace OsProjects.Vm

open Alloc (Fault Kmem pgsize pointers kfree kinit partA Conserved Frames PartA.kalloc)

/-- `kalloc` in a run that is given up where it would return `NULL`. -/
def kallocOrStop (s : Kmem) : Except Fault (ℕ × Kmem) := do
  let (r, s) ← PartA.kalloc s
  if r = 0 then throw (.panic "kalloc") else pure (r, s)

/-- A call of `kalloc` during fork returns `NULL`. -/
def Exhausts (data end_ trapret forkret : ℕ) (proc : Slot) (k : Kernel) : Prop :=
  fork kallocOrStop data end_ trapret forkret proc k = .error (.panic "kalloc")

/-- fork fails, and every slot and the allocated frames are as before. -/
def LeaksNothing (data end_ trapret forkret : ℕ) (proc : Slot) (k : Kernel) : Prop :=
  ∃ k', fork PartA.kalloc data end_ trapret forkret proc k = .ok (-1, k') ∧
    (∀ p, (k'.ptable p).state = (k.ptable p).state) ∧
    ∀ a, a ∈ k'.kmem.allocated ↔ a ∈ k.kmem.allocated

/-! ### The watched run -/

section Watched

variable {s t : Kmem} {r d pte a : ℕ}

theorem kallocOrStop_of_ok (h : PartA.kalloc s = .ok (r, t)) (hr : r ≠ 0) :
    kallocOrStop s = .ok (r, t) := by
  rw [kallocOrStop, h, ok_bind]
  exact if_neg hr

theorem walkpgdir_watched {create : Bool} (h : walkpgdir PartA.kalloc d a create s = .ok (pte, t))
    (hpte : pte ≠ 0) : walkpgdir kallocOrStop d a create s = .ok (pte, t) := by
  rw [walkpgdir] at h ⊢
  split at h
  · rw [if_pos ‹_›]
    exact h
  rw [if_neg ‹_›]
  split at h
  · rw [if_pos ‹_›]
    obtain ⟨⟨r, u⟩, hk, hr⟩ := bind_ok.1 h
    dsimp only at hr
    split at hr
    · exact absurd (Prod.mk.inj (Except.ok.inj hr)).1.symm hpte
    · rw [kallocOrStop_of_ok hk ‹_›, ok_bind]
      dsimp only
      rw [if_neg ‹_›]
      exact hr
  · rw [if_neg ‹_›]
    exact h

theorem mapLoop_watched {ms : List Mapping} (h : mapLoop PartA.kalloc d ms s = .ok (true, t)) :
    mapLoop kallocOrStop d ms s = .ok (true, t) := by
  induction ms generalizing s with
  | nil => exact h
  | cons m ms ih =>
    rw [mapLoop] at h ⊢
    obtain ⟨⟨pte, u⟩, hw, hr⟩ := bind_ok.1 h
    dsimp only at hr
    split at hr
    · cases hr
    rw [walkpgdir_watched hw ‹_›, ok_bind]
    dsimp only
    rw [if_neg ‹_›]
    split at hr
    · cases hr
    · rw [if_neg ‹_›]
      exact ih hr

/-- A `setupkvm` that succeeds meets no `NULL`. -/
theorem setupkvm_watched {data : ℕ} (h : setupkvm PartA.kalloc data s = .ok (d, t)) (hd : d ≠ 0) :
    setupkvm kallocOrStop data s = .ok (d, t) := by
  rw [setupkvm] at h ⊢
  obtain ⟨⟨r, u⟩, hk, hr⟩ := bind_ok.1 h
  dsimp only at hr
  split at hr
  · exact absurd (Prod.mk.inj (Except.ok.inj hr)).1.symm hd
  rw [kallocOrStop_of_ok hk ‹_›, ok_bind]
  dsimp only
  rw [if_neg ‹_›]
  obtain ⟨⟨ok, v⟩, hm, hv⟩ := bind_ok.1 hr
  cases ok with
  | false => exact absurd (Prod.mk.inj (Except.ok.inj hv)).1.symm hd
  | true =>
    rw [kmapLoop_eq] at hm ⊢
    rw [mapLoop_watched hm]
    exact hv

end Watched

/-! ### Copying the user pages -/

section Copy

variable {end_ : ℕ} {frames : List ℕ} {s t : Kmem} {d f r : ℕ} {T : List (ℕ × ℕ)} {K : Set ℕ}
  {U : List ℕ} {M : Set ℕ}

theorem Directory.congr (hD : Directory s d T M)
    (hal : ∀ v ∈ d :: T.map Prod.snd, v ∈ t.allocated)
    (hw : ∀ v ∈ d :: T.map Prod.snd, ∀ i < 1024, t.next (v + 4 * i) = s.next (v + 4 * i)) :
    Directory t d T M := by
  refine ⟨hal, hD.nodup, hD.keys_nodup, hD.covers, hD.lt, fun j f hf => ?_, fun j hj hnot => ?_,
    fun j f hf i hi => ?_⟩
  · rw [hw d List.mem_cons_self j (hD.lt j (List.mem_map_of_mem hf))]
    exact hD.pde j f hf
  · rw [hw d List.mem_cons_self j hj]
    exact hD.absent j hj hnot
  · rw [hw f (List.mem_cons_of_mem _ (List.mem_map_of_mem hf)) i hi]
    exact hD.pte j f hf i hi

/-- The copy of one more page: the frame `r` is mapped, unless the kernel part has been reached. -/
theorem Copying.copy_page (hF : Frames end_ frames)
    (hK : Copying K s d T U) (hf : (0, f) ∈ T) (hr : r ∉ s.allocated) (hCt : Conserved frames t)
    (hal : t.allocated = s.allocated ++ [r]) (hnext : t.next = s.next) (src : ℕ) {perm : ℕ}
    (hperm : perm < pgsize) :
    (∃ u, (∀ kalloc, mappages kalloc d (pgsize * U.length) pgsize r perm (copyPage r src t) =
        .ok (true, u)) ∧
      Conserved frames u ∧ Copying K u d T (U ++ [r]) ∧ u.allocated = s.allocated ++ [r]) ∨
    ∀ kalloc, mappages kalloc d (pgsize * U.length) pgsize r perm (copyPage r src t) =
      .error (.panic "remap") := by
  have hle := hK.le
  have hrt : r ∈ t.allocated := by simp [hal]
  have hrlt : r < pointers := by
    have hval := (hF.valid r (mem_frames hCt hrt)).2.2
    unfold Alloc.phystop pointers at *
    omega
  have hsub : ∀ v ∈ d :: T.map Prod.snd, v ∈ t.allocated := fun v hv => by
    rw [hal]
    exact List.mem_append_left _ (hK.directory.allocated v hv)
  have hrmod := aligned hF hCt hrt
  have hold : ∀ v ∈ d :: T.map Prod.snd, ∀ i < 1024,
      (copyPage r src t).next (v + 4 * i) = s.next (v + 4 * i) := by
    intro v hv i hi
    rw [← hnext]
    refine if_neg (outside hrmod (aligned hF hCt (hsub v hv)) ?_ hi)
    rintro rfl
    exact hr (hK.directory.allocated v hv)
  have hC₁ := conserved_copyPage hF hCt hrt src
  have hD₁ : Directory (copyPage r src t) d T _ := hK.directory.congr hsub hold
  have hfU : (page (pgsize * U.length) / 1024, f) ∈ T := by
    rw [page_pgsize_mul, Nat.div_eq_of_lt (by omega)]
    exact hf
  have hmod : page (pgsize * U.length) % 1024 = U.length := by
    rw [page_pgsize_mul, Nat.mod_eq_of_lt (by omega)]
  have hfal := hD₁.table_allocated hf
  have hpte : f + 4 * U.length ≠ 0 := by
    have := pointer_ne_zero hF hC₁ hfal
    omega
  have hmap : ∀ kalloc, mappages kalloc d (pgsize * U.length) pgsize r perm (copyPage r src t) =
      if Present ((copyPage r src t).next (f + 4 * U.length)) then throw (.panic "remap")
      else pure (true, store (f + 4 * U.length) (r ||| perm ||| pteP) (copyPage r src t)) := by
    intro kalloc
    rw [mappages, mappings_page (by omega) hrlt, mapLoop,
      hD₁.walk (by unfold pgsize pointers; omega) hfU, ok_bind, hmod]
    exact if_neg hpte
  by_cases hlast : U.length = 160
  · right
    intro kalloc
    have hpresent : Present ((copyPage r src t).next (f + 4 * U.length)) := by
      rw [hD₁.pte 0 f hf _ (by omega)]
      right
      rw [hlast]
      exact hK.first
    rw [hmap, if_pos hpresent]
    rfl
  · left
    have hnot : U.length ∉ {p | p < U.length ∨ p ∈ K} := by
      rintro (h | h)
      · exact lt_irrefl _ h
      · have := hK.above _ h
        omega
    have hfL : (U.length / 1024, f) ∈ T := by
      rw [Nat.div_eq_of_lt (by omega)]
      exact hf
    obtain ⟨habsent, hC₂, hD₂⟩ := hD₁.map_entry hF hC₁ hfL hnot (r ||| perm)
    rw [Nat.mod_eq_of_lt (by omega : U.length < 1024)] at habsent hC₂ hD₂
    simp only [hmap, if_neg habsent]
    refine ⟨_, fun _ => rfl, hC₂,
      ⟨?_, hK.above, hK.first, fun g hg i v hv => ?_, fun v hv => ?_, ?_, ?_⟩,
      hal⟩
    · have hset : insert U.length {p | p < U.length ∨ p ∈ K} =
          {p | p < (U ++ [r]).length ∨ p ∈ K} := by
        ext p
        simp only [Set.mem_insert_iff, Set.mem_ofPred_eq, List.length_append, List.length_singleton]
        rw [← or_assoc, Nat.lt_succ_iff_lt_or_eq, or_comm (a := p = U.length)]
      rw [← hset]
      exact hD₂
    · obtain rfl : g = f := by
        have hpair := List.inj_on_of_nodup_map hD₁.keys_nodup hg hf rfl
        exact (Prod.mk.inj hpair).2
      rcases Nat.lt_or_ge i U.length with hi | hi
      · rw [List.getElem?_append_left hi] at hv
        rw [store_next, Function.update_of_ne (by omega),
          hold g (List.mem_cons_of_mem _ (List.mem_map_of_mem hf)) i (by omega)]
        exact hK.addr g hf i v hv
      · rw [List.getElem?_append_right hi, List.getElem?_singleton] at hv
        split at hv
        · obtain rfl := Option.some.inj hv
          obtain rfl : i = U.length := by omega
          rw [store_next, Function.update_self, Nat.or_assoc]
          exact pteAddr_or hrmod (Nat.or_lt_two_pow (n := 12) hperm (by decide))
        · cases hv
    · rw [store_allocated, copyPage_allocated, hal]
      exact List.mem_append.2 ((List.mem_append.1 hv).imp (hK.allocated v) id)
    · rw [← List.append_assoc]
      refine List.nodup_append'.2 ⟨hK.nodup, List.nodup_singleton r, ?_⟩
      intro v hv hvr
      obtain rfl := List.mem_singleton.1 hvr
      exact hr ((List.mem_append.1 hv).elim (hK.directory.allocated v) (hK.allocated v))
    · rw [List.length_append, List.length_singleton]
      omega

/-- **Copying pages.**  The watched loop finishes, or panics for another reason, or stops where
`kalloc` returns `NULL`; then the code leaves the loop with the pages copied so far. -/
theorem copyLoop_watched (hF : Frames end_ frames) (pgdir : ℕ) {n : ℕ} (hC : Conserved frames s)
    (hK : Copying K s d T U) (hf : (0, f) ∈ T) :
    let is := (List.range' U.length n).map (pgsize * ·)
    (∃ t, copyLoop kallocOrStop pgdir d is s = .ok (true, t)) ∨
    (∃ e, e ≠ .panic "kalloc" ∧ copyLoop kallocOrStop pgdir d is s = .error e) ∨
    ∃ t U', copyLoop PartA.kalloc pgdir d is s = .ok (false, t) ∧ Conserved frames t ∧
      Copying K t d T (U ++ U') ∧ t.allocated = s.allocated ++ U' := by
  induction n generalizing s U with
  | zero => exact .inl ⟨s, rfl⟩
  | succ n ih =>
    intro is
    simp only [is, List.range'_succ, List.map_cons, copyLoop, walkpgdir_false, ok_bind]
    generalize (if Present (s.next (pgdir + 4 * pdx (pgsize * U.length))) then
      pteAddr (s.next (pgdir + 4 * pdx (pgsize * U.length))) + 4 * ptx (pgsize * U.length)
      else 0) = pte
    by_cases hpte : pte = 0
    · exact .inr (.inl ⟨.panic "copyuvm: pte should exist", by decide, by rw [if_pos hpte]; rfl⟩)
    by_cases hpresent : Present (s.next pte)
    swap
    · refine .inr (.inl ⟨.panic "copyuvm: page not present", by decide, ?_⟩)
      rw [if_neg hpte, if_pos hpresent]
      rfl
    simp only [if_neg hpte, not_not.2 hpresent, if_false]
    rcases Nat.lt_or_ge s.allocated.length frames.length with hfree | hfull
    swap
    · have hfull := (allocated_length_le hC).antisymm hfull
      rw [kalloc_none hC hfull]
      exact .inr (.inr ⟨s, [], rfl, hC, by simpa using hK, by simp⟩)
    obtain ⟨r, t, hk, hr0, hr, hCt, hal, hnext⟩ := kalloc_some hF hC hfree
    rw [hk, kallocOrStop_of_ok hk hr0]
    simp only [ok_bind, if_neg hr0]
    have hperm : s.next pte &&& pteW ||| pteU < pgsize :=
      Nat.or_lt_two_pow (n := 12) (lt_of_le_of_lt Nat.and_le_right (by decide)) (by decide)
    rcases hK.copy_page hF hf hr hCt hal hnext (pteAddr (s.next pte)) hperm with
      ⟨u, hu, hCu, hKu, halu⟩ | hu
    swap
    · exact .inr (.inl ⟨.panic "remap", by decide, by rw [hu]; rfl⟩)
    have hlen : U.length + 1 = (U ++ [r]).length := by simp
    simp only [hu, ok_bind, if_true, hlen]
    rcases ih hCu hKu with h | h | ⟨t', U', h1, h2, h3, h4⟩
    · exact .inl h
    · exact .inr (.inl h)
    · refine .inr (.inr ⟨t', r :: U', h1, h2, ?_, ?_⟩)
      · rwa [List.append_assoc, List.singleton_append] at h3
      · rw [h4, halu, List.append_assoc, List.singleton_append]

end Copy

/-! ### fork -/

section Fork

variable {data end_ trapret forkret : ℕ} {frames : List ℕ} {s t u : Kmem} {k : Kernel}
  {proc p : Slot} {r v : ℕ}

variable (trapret forkret) in
/-- The new stack is written only. -/
theorem initStack_spec (hF : Frames end_ frames) (hC : Conserved frames s) (hv : v ∈ s.allocated) :
    Conserved frames (initStack trapret forkret v s) ∧
      (initStack trapret forkret v s).allocated = s.allocated ∧
      ∀ a, ¬(v ≤ a ∧ a < v + pgsize) → (initStack trapret forkret v s).next a = s.next a := by
  let Written (s' : Kmem) : Prop := Conserved frames s' ∧ s'.allocated = s.allocated ∧
    ∀ a, ¬(v ≤ a ∧ a < v + pgsize) → s'.next a = s.next a
  have hstore : ∀ {s' : Kmem} {a : ℕ} (w : ℕ), Written s' → v ≤ a ∧ a < v + pgsize →
      Written (store a w s') := by
    intro s' a w h ha
    refine ⟨conserved_store hF h.1 (h.2.1 ▸ hv) ha, h.2.1, fun b hb => ?_⟩
    rw [store_next, Function.update_of_ne, h.2.2 b hb]
    rintro rfl
    exact hb ha
  change Written (initStack trapret forkret v s)
  simp only [initStack, kstacksize, sizeofTrapframe, sizeofContext, eipOffset]
  have hrange : List.range (20 / 4) = [0, 1, 2, 3, 4] := rfl
  rw [hrange]
  simp only [List.foldl_cons, List.foldl_nil]
  refine hstore _ (hstore _ (hstore _ (hstore _ (hstore _ (hstore _ (hstore _
    ⟨hC, rfl, fun _ _ => rfl⟩ ?_) ?_) ?_) ?_) ?_) ?_) ?_ <;> unfold pgsize <;> omega

theorem unusedSlot_state (hp : unusedSlot k = some p) : (k.ptable p).state = .unused := by
  simpa using List.find?_some hp

theorem setProc_ptable (np : Proc) :
    (k.setProc p np).ptable = Function.update k.ptable p np := rfl

theorem setProc_state (np : Proc) (h : np.state = (k.ptable p).state) (q : Slot) :
    ((k.setProc p np).ptable q).state = (k.ptable q).state := by
  rw [setProc_ptable]
  by_cases hq : q = p
  · rw [hq, Function.update_self, h]
  · rw [Function.update_of_ne hq]

variable (data end_ trapret forkret proc) in
/-- fork without a kernel stack. -/
theorem fork_no_stack (hp : unusedSlot k = some p) (hk : PartA.kalloc k.kmem = .ok (0, s)) :
    ∃ k', fork PartA.kalloc data end_ trapret forkret proc k = .ok (-1, k') ∧
      (∀ q, (k'.ptable q).state = (k.ptable q).state) ∧ k'.kmem = s := by
  have hunused := unusedSlot_state hp
  rw [fork, allocproc, hp]
  simp only [hk, ok_bind, if_true]
  exact ⟨_, rfl, setProc_state _ hunused.symm, rfl⟩

variable (trapret forkret) in
/-- What `allocproc` has done when it returns a slot. -/
theorem allocproc_some {kalloc : Kmem → Except Fault (ℕ × Kmem)} (hp : unusedSlot k = some p)
    (hk : kalloc k.kmem = .ok (r, s)) (hr : r ≠ 0) :
    ∃ k₁, allocproc kalloc trapret forkret k = .ok (some p, k₁) ∧
      k₁.kmem = initStack trapret forkret r s ∧ (k₁.ptable p).kstack = r ∧
      (∀ q, q ≠ p → k₁.ptable q = k.ptable q) ∧
      ∀ q, (k₁.ptable q).pgdir = (k.ptable q).pgdir ∧ (k₁.ptable q).sz = (k.ptable q).sz := by
  rw [allocproc, hp]
  simp only [hk, ok_bind, if_neg hr]
  refine ⟨_, rfl, rfl, ?_, fun q hq => ?_, fun q => ?_⟩ <;> rw [setProc_ptable]
  · rw [Function.update_self]
  · exact Function.update_of_ne hq _ _
  · by_cases hq : q = p
    · rw [hq, Function.update_self]
      exact ⟨rfl, rfl⟩
    · rw [Function.update_of_ne hq]
      exact ⟨rfl, rfl⟩

/-- fork without a copy of the parent's memory. -/
theorem fork_no_copy (hp : unusedSlot k = some p) (hk : PartA.kalloc k.kmem = .ok (r, s))
    (hr : r ≠ 0)
    (hcopy : copyuvm PartA.kalloc data end_ (k.ptable proc).pgdir (k.ptable proc).sz
      (initStack trapret forkret r s) = .ok (0, t))
    (hfree : kfree end_ r t = .ok u) :
    ∃ k', fork PartA.kalloc data end_ trapret forkret proc k = .ok (-1, k') ∧
      (∀ q, (k'.ptable q).state = (k.ptable q).state) ∧ k'.kmem = u := by
  have hunused := unusedSlot_state hp
  obtain ⟨k₁, hk₁, hmem, hstack, hother, hsame⟩ :=
    allocproc_some trapret forkret hp hk hr
  rw [fork, hk₁, ok_bind]
  dsimp only
  rw [(hsame proc).1, (hsame proc).2, hmem, hcopy, ok_bind]
  dsimp only
  rw [if_pos rfl, hstack, hfree, ok_bind]
  refine ⟨_, rfl, fun q => ?_, rfl⟩
  rw [setProc_ptable]
  by_cases hq : q = p
  · rw [hq, Function.update_self, hunused]
  · rw [Function.update_of_ne hq]
    exact congrArg Proc.state (hother q hq)

theorem dupFiles_error {ofile : Fin nofile → Option ℕ} {e : Fault}
    (h : dupFiles ofile k = .error e) : e = .panic "filedup" := by
  obtain ⟨pre, i, suf, k', -, -, he⟩ := foldlM_error_iff.1 h
  split at he
  · cases he
  · rw [filedup] at he
    split at he
    · exact (Except.error.inj he).symm
    · cases he

theorem kfree_error {e : Fault} (h : kfree end_ v s = .error e) : e = .panic "kfree" := by
  rw [kfree] at h
  split at h
  · exact (Except.error.inj h).symm
  · cases h

/-- The call of `kalloc` that returns `NULL` is in `copyuvm` if the stack could be allocated. -/
theorem Exhausts.copyuvm (hp : unusedSlot k = some p) (hk : PartA.kalloc k.kmem = .ok (r, s))
    (hr : r ≠ 0) (h : Exhausts data end_ trapret forkret proc k) :
    Vm.copyuvm kallocOrStop data end_ (k.ptable proc).pgdir (k.ptable proc).sz
      (initStack trapret forkret r s) = .error (.panic "kalloc") := by
  obtain ⟨k₁, hk₁, hmem, hstack, -, hsame⟩ :=
    allocproc_some trapret forkret hp (kallocOrStop_of_ok hk hr) hr
  rw [Exhausts, fork, hk₁, ok_bind] at h
  dsimp only at h
  rw [(hsame proc).1, (hsame proc).2, hmem] at h
  rcases bind_error.1 h with hcopy | ⟨⟨d, t⟩, -, hrest⟩
  · exact hcopy
  -- The rest of fork ends in no such error.
  dsimp only at hrest
  split at hrest
  · rcases bind_error.1 hrest with hfree | ⟨_, -, hret⟩
    · exact absurd (kfree_error hfree) (by decide)
    · cases hret
  · rcases bind_error.1 hrest with hdup | ⟨_, -, hret⟩
    · exact absurd (dupFiles_error hdup) (by decide)
    · cases hret

/-- fork has failed: whether it has leaked is a matter of the allocated frames. -/
theorem leaksNothing_of_fork {k' : Kernel}
    (h : fork PartA.kalloc data end_ trapret forkret proc k = .ok (-1, k') ∧
      (∀ q, (k'.ptable q).state = (k.ptable q).state) ∧ k'.kmem = u) :
    LeaksNothing data end_ trapret forkret proc k ↔
      ∀ a, a ∈ u.allocated ↔ a ∈ k.kmem.allocated := by
  obtain ⟨hfork, hstates, rfl⟩ := h
  constructor
  · rintro ⟨k'', hk'', -, hal⟩
    obtain ⟨-, rfl⟩ := Prod.mk.inj (Except.ok.inj (hfork.symm.trans hk''))
    exact hal
  · intro hal
    exact ⟨k', hfork, hstates, hal⟩

/-- Once the stack is allocated, fork gives back all it has taken, or has lost a frame of the kernel
part; the number of free frames decides. -/
theorem copyuvm_exhausted (hL : Layout data) (hF : Frames end_ frames) (hC : Conserved frames s)
    {pgdir sz : ℕ} (hex : copyuvm kallocOrStop data end_ pgdir sz s = .error (.panic "kalloc")) :
    ∃ t, copyuvm PartA.kalloc data end_ pgdir sz s = .ok (0, t) ∧ Conserved frames t ∧
      s.allocated ⊆ t.allocated ∧
      ((∀ a, a ∈ t.allocated ↔ a ∈ s.allocated) ↔
        frames.length < s.allocated.length + 1 ∨ s.allocated.length + 13 ≤ frames.length) := by
  obtain ⟨d, t, hsetup, hCt, ⟨rfl, hfull, hal⟩ | ⟨rfl, hlt, hfew, ⟨v, hv, hnot⟩, hsub⟩ |
    ⟨hd, hmany, T, hD, hal, -⟩⟩ := setupkvm_spec hL hF hC
  · refine ⟨t, by rw [copyuvm, hsetup]; rfl, hCt, hal ▸ List.Subset.refl _, ?_⟩
    rw [hal]
    exact iff_of_true (fun _ => .rfl) (.inl (by omega))
  · refine ⟨t, by rw [copyuvm, hsetup]; rfl, hCt, hsub, ?_⟩
    exact iff_of_false (fun h => hnot ((h v).1 hv)) (by omega)
  -- The kernel part is there: it is the copy of a page that fails.
  have hfirst : (160 : ℕ) ∈ {p | p ∈ pages (kernelMappings (kmap data))} :=
    (mem_pages_kernel hL).2 (by decide)
  obtain ⟨⟨j, f⟩, hf, rfl : j = 0⟩ := List.mem_map.1 (hD.covers 160 hfirst)
  have hset : {p | p < ([] : List ℕ).length ∨ p ∈ {p | p ∈ pages (kernelMappings (kmap data))}} =
      {p | p ∈ pages (kernelMappings (kmap data))} := by
    ext p
    simp
  have hK : Copying {p | p ∈ pages (kernelMappings (kmap data))} t d T [] := by
    refine ⟨hset.symm ▸ hD, fun p hp => ?_, hfirst, by simp, by simp, by simpa using hD.nodup,
      by simp⟩
    have := (mem_pages_kernel hL).1 hp
    omega
  have hpages : pagesBetween 0 sz =
      (List.range' ([] : List ℕ).length ((sz + (pgsize - 1)) / pgsize)).map (pgsize * ·) := by
    rw [pagesBetween_zero, List.range_eq_range']
    rfl
  rw [copyuvm, setupkvm_watched hsetup hd, ok_bind] at hex
  dsimp only at hex
  rw [if_neg hd, hpages] at hex
  rcases copyLoop_watched hF pgdir hCt hK hf with ⟨u, hu⟩ | ⟨e, he, hu⟩ | ⟨u, U, hu, hCu, hKu, halu⟩
  · rw [hu] at hex
    cases hex
  · rw [hu] at hex
    exact absurd (Except.error.inj hex) he
  rw [List.nil_append] at hKu
  obtain ⟨w, hw, hCw, halw⟩ := freevm_spec PartA.kalloc hF hCu hKu hf
  have hsame : ∀ a, a ∈ w.allocated ↔ a ∈ s.allocated := by
    have hnd := allocated_nodup hF hCu
    rw [halu, hal, List.append_assoc] at hnd
    have hdisj := (List.nodup_append'.1 hnd).2.2
    intro a
    rw [halw, halu, hal, List.append_assoc, List.mem_append]
    refine ⟨fun h => h.1.resolve_right h.2, fun h => ⟨.inl h, hdisj h⟩⟩
  refine ⟨w, ?_, hCw, fun a ha => (hsame a).2 ha, iff_of_true hsame (.inr hmany)⟩
  rw [copyuvm, hsetup, ok_bind]
  dsimp only
  rw [if_neg hd, hpages, hu, ok_bind]
  dsimp only
  rw [if_neg (by decide), hw]
  rfl

/-- Whether fork leaks is a matter of the number of free frames. -/
theorem leaksNothing_iff_length (hL : Layout data) (hF : Frames end_ frames)
    (hC : Conserved frames k.kmem) {free : List ℕ}
    (hc : Chain 0 k.kmem.next k.kmem.freelist free)
    (hex : Exhausts data end_ trapret forkret proc k) :
    LeaksNothing data end_ trapret forkret proc k ↔ free.length < 2 ∨ 14 ≤ free.length := by
  obtain ⟨free', hc', hperm⟩ := id hC
  obtain rfl := hc'.unique hc
  have hlen := hperm.length_eq
  rw [List.length_append] at hlen
  cases hp : unusedSlot k with
  | none =>
    rw [Exhausts, fork, allocproc, hp] at hex
    cases hex
  | some p =>
    rcases Nat.lt_or_ge k.kmem.allocated.length frames.length with hfree | hfull
    swap
    · have hfull := (allocated_length_le hC).antisymm hfull
      obtain ⟨k', hk'⟩ := fork_no_stack data end_ trapret forkret proc hp
        (kalloc_none hC hfull)
      rw [leaksNothing_of_fork hk']
      exact iff_of_true (fun _ => .rfl) (.inl (by omega))
    obtain ⟨r, s, hk, hr0, hr, hCs, hal, -⟩ := kalloc_some hF hC hfree
    have hrs : r ∈ s.allocated := by simp [hal]
    obtain ⟨hC₁, hal₁, -⟩ := initStack_spec trapret forkret hF hCs hrs
    rw [hal] at hal₁
    obtain ⟨t, ht, hCt, hsub, hiff⟩ := copyuvm_exhausted hL hF hC₁ (hex.copyuvm hp hk hr0)
    have hrt : r ∈ t.allocated := hsub (by simp [hal₁])
    obtain ⟨u, hu, -, halu, -⟩ := kfree_spec hF hCt hrt
    obtain ⟨k', hk'⟩ := fork_no_copy hp hk hr0 ht hu
    rw [hal₁, List.length_append, List.length_singleton] at hiff
    have hsame : (∀ a, a ∈ u.allocated ↔ a ∈ k.kmem.allocated) ↔
        ∀ a, a ∈ t.allocated ↔ a ∈ k.kmem.allocated ++ [r] := by
      refine forall_congr' fun a => ?_
      rw [halu, List.mem_append, List.mem_singleton]
      by_cases ha : a = r
      · subst ha
        simp [hr, hrt]
      · simp [ha]
    rw [leaksNothing_of_fork hk', hsame, hiff]
    omega

/-- `setupkvm` leaves the first words of the frames in use. -/
theorem setupkvm_next (hL : Layout data) (hF : Frames end_ frames) (hC : Conserved frames s)
    {d : ℕ} (hk : setupkvm PartA.kalloc data s = .ok (d, t)) (hd : d ≠ 0) (hv : v ∈ s.allocated) :
    t.next v = s.next v := by
  obtain ⟨T, -, -, hconf⟩ := (setupkvm_evolves (.inl rfl) hF hL hC hk).2.2 hd
  have hlive : v ∈ Alloc.frameMemory.live s := hv
  exact Alloc.content_eq_iff.1 (hconf.content_eq v hlive (Set.notMem_empty v)) 0 (by decide)

/-- The frames suffice for the stack and the kernel part, not for the copy of the one page. -/
theorem exhausts_first (hL : Layout data) (hF : Frames end_ frames) (hC : Conserved frames k.kmem)
    (hp : unusedSlot k = some p) (hsz : (k.ptable proc).sz = pgsize) {f : ℕ}
    (hd : (k.ptable proc).pgdir ∈ k.kmem.allocated) (hf : f ∈ k.kmem.allocated)
    (hpde : k.kmem.next (k.ptable proc).pgdir = f ||| 7) (hpte : Present (k.kmem.next f))
    (hn : k.kmem.allocated.length + 14 = frames.length) :
    Exhausts data end_ trapret forkret proc k := by
  obtain ⟨r, s, hk, hr0, hr, hCs, hal, hnext⟩ := kalloc_some hF hC (by omega)
  obtain ⟨hC₁, hal₁, hold⟩ := initStack_spec trapret forkret hF hCs (v := r) (by simp [hal])
  obtain ⟨k₁, hk₁, hmem, -, -, hsame⟩ :=
    allocproc_some trapret forkret hp (kallocOrStop_of_ok hk hr0) hr0
  rw [hal] at hal₁
  obtain ⟨d, t, hsetup, hCt, ⟨-, hfull, -⟩ | ⟨-, -, hfew, -⟩ | ⟨hd0, -, T, -, halt, hT⟩⟩ :=
    setupkvm_spec hL hF hC₁
  · rw [hal₁, List.length_append, List.length_singleton] at hfull
    omega
  · rw [hal₁, List.length_append, List.length_singleton] at hfew
    omega
  -- The words of the parent are as before.
  have hkept : ∀ v ∈ k.kmem.allocated, t.next v = k.kmem.next v := by
    intro v hv
    have hvs : v ∈ s.allocated := by
      rw [hal]
      exact List.mem_append_left _ hv
    have hne : v ≠ r := fun h => hr (h ▸ hv)
    have hword := setupkvm_next hL hF hC₁ hsetup hd0 (by rwa [hal₁, ← hal])
    have hout := outside (aligned hF hCs (v := r) (by simp [hal])) (aligned hF hCs hvs) hne
      (i := 0) (by decide)
    exact hword.trans ((hold _ hout).trans (congrFun hnext _))
  have hlen : t.allocated.length = frames.length := by
    simp only [halt, hal₁, List.length_append, List.length_cons, List.length_nil, List.length_map]
    omega
  have hpresent : Present (t.next (k.ptable proc).pgdir) := by
    rw [hkept _ hd, hpde]
    exact present_or _ _ (by decide)
  have haddr : pteAddr (t.next (k.ptable proc).pgdir) = f := by
    rw [hkept _ hd, hpde]
    exact pteAddr_or (aligned hF hC hf) (by decide)
  have hwalk : walkpgdir kallocOrStop (k.ptable proc).pgdir (pgsize * 0) false t = .ok (f, t) := by
    have hpdx : 4 * pdx (pgsize * 0) = 0 := by decide
    have hptx : 4 * ptx (pgsize * 0) = 0 := by decide
    rw [walkpgdir_false, hpdx, hptx, Nat.add_zero, if_pos hpresent, haddr, Nat.add_zero]
  have hstop : kallocOrStop t = .error (.panic "kalloc") := by
    rw [kallocOrStop, kalloc_none hCt hlen]
    rfl
  rw [Exhausts, fork, hk₁, ok_bind]
  dsimp only
  rw [(hsame proc).1, (hsame proc).2, hmem, hsz, copyuvm, setupkvm_watched hsetup hd0, ok_bind]
  dsimp only
  rw [if_neg hd0, show pagesBetween 0 pgsize = [pgsize * 0] from rfl, copyLoop, hwalk, ok_bind]
  dsimp only
  rw [if_neg (pointer_ne_zero hF hC hf), if_neg (not_not.2 ((hkept f hf).symm ▸ hpte)), hstop]
  rfl

/-- **fork without memory leaks nothing** exactly if the frames do not run out in `setupkvm`. -/
theorem leaksNothing_iff {mem : ℕ → ℕ} {s₀ : Kmem} {es : List Alloc.Event} (hL : Layout data)
    (hboot : kinit end_ partA.stride (Kmem.boot mem) = .ok s₀)
    (hrun : Run (Alloc.Step partA end_) s₀ es k.kmem)
    (hex : Exhausts data end_ trapret forkret proc k) :
    LeaksNothing data end_ trapret forkret proc k ↔
      ∃ free, Chain 0 k.kmem.next k.kmem.freelist free ∧ (free.length < 2 ∨ 14 ≤ free.length) := by
  have hstride : 0 < partA.stride := by decide
  have hF := Alloc.frames_of_kinit hstride hboot
  have hC := Alloc.conserved_run (.inl rfl) hF (Alloc.kinit_conserved hstride hboot).1 hrun
  have hiff : ∀ free, Chain 0 k.kmem.next k.kmem.freelist free →
      (LeaksNothing data end_ trapret forkret proc k ↔ free.length < 2 ∨ 14 ≤ free.length) :=
    fun free hc => leaksNothing_iff_length hL hF hC hc hex
  constructor
  · intro h
    obtain ⟨free, hc, -⟩ := hC
    exact ⟨free, hc, (hiff free hc).1 h⟩
  · rintro ⟨free, hc, hfree⟩
    exact (hiff free hc).2 hfree

/-- A table of unused slots. -/
def booted (s : Kmem) : Kernel :=
  ⟨s, fun _ => ⟨0, 0, 0, .unused, 0, none, 0, 0, fun _ => none, 0, []⟩, 1, fun _ => 0, fun _ => 0⟩

/-- A process of one page in the slot 0. -/
def onlyProcess (s : Kmem) (pgdir : ℕ) : Kernel :=
  (booted s).setProc 0
    ⟨pgsize, pgdir, 0, .running, 1, none, 0, 0, fun _ => none, 0, []⟩

/-- With fourteen frames, the one for the copy of the page is missing, and fork gives back all. -/
theorem leaksNothing_onlyProcess : ∃ (s : Kmem) (pgdir : ℕ) (free : List ℕ),
    Chain 0 s.next s.freelist free ∧ free.length = 14 ∧
    Exhausts 0x101000 0xFDE000 0 0 0 (onlyProcess s pgdir) ∧
    LeaksNothing 0x101000 0xFDE000 0 0 0 (onlyProcess s pgdir) := by
  have hL : Layout 0x101000 := ⟨by decide, by decide, by decide⟩
  have hstride : 0 < partA.stride := by decide
  have hlen : (Alloc.managedFrames 0xFDE000 partA.stride).length = 17 := by decide
  obtain ⟨s₀, hboot⟩ : ∃ s₀, kinit 0xFDE000 partA.stride (Kmem.boot fun _ => 0) = .ok s₀ := ⟨_, rfl⟩
  have hF := Alloc.frames_of_kinit hstride hboot
  obtain ⟨hC₀, hnil, -⟩ := Alloc.kinit_conserved hstride hboot
  obtain ⟨d, s₁, hk₁, -, -, hC₁, hal₁, -⟩ := kalloc_some hF hC₀ (by rw [hnil, hlen]; decide)
  rw [hnil] at hal₁
  obtain ⟨f, s₂, hk₂, -, hf, hC₂, hal₂, -⟩ := kalloc_some hF hC₁ (by simp [hal₁, hlen])
  rw [hal₁] at hf hal₂
  obtain ⟨v, s₃, hk₃, -, -, hC₃, hal₃, -⟩ := kalloc_some hF hC₂ (by simp [hal₂, hlen])
  rw [hal₂] at hal₃
  have hfd : f ≠ d := by simpa using hf
  have hwrite : ∀ a, ¬s₃.Owned a →
      Function.update (Function.update s₃.next d (f ||| 7)) f (v ||| 7) a = s₃.next a := by
    intro a ha
    have hne : ∀ w ∈ s₃.allocated, a ≠ w := by
      rintro w hw rfl
      exact ha ⟨a, hw, le_rfl, by unfold pgsize; omega⟩
    rw [Function.update_of_ne (hne f (by simp [hal₃])),
      Function.update_of_ne (hne d (by simp [hal₃]))]
  let s : Kmem :=
    { s₃ with next := Function.update (Function.update s₃.next d (f ||| 7)) f (v ||| 7) }
  have hrun : Run (Alloc.Step partA 0xFDE000) s₀
      [.kalloc d, .kalloc f, .kalloc v, .write s.next] s :=
    .cons ⟨trivial, hk₁⟩ (.cons ⟨trivial, hk₂⟩ (.cons ⟨trivial, hk₃⟩
      (Run.single_iff.2 ⟨hwrite, rfl⟩)))
  have hC := Alloc.conserved_run (.inl rfl) hF hC₀ hrun
  have hex : Exhausts 0x101000 0xFDE000 0 0 0 (onlyProcess s d) := by
    refine exhausts_first hL hF (p := 1) (f := f) hC rfl rfl ?_ ?_ ?_ ?_ ?_
    · show d ∈ s₃.allocated
      simp [hal₃]
    · show f ∈ s₃.allocated
      simp [hal₃]
    · show Function.update (Function.update s₃.next d (f ||| 7)) f (v ||| 7) d = f ||| 7
      rw [Function.update_of_ne hfd.symm, Function.update_self]
    · show Present (Function.update (Function.update s₃.next d (f ||| 7)) f (v ||| 7) f)
      rw [Function.update_self]
      exact present_or _ _ (by decide)
    · show s₃.allocated.length + 14 = _
      rw [hal₃, hlen]
      rfl
  obtain ⟨free, hc, hperm⟩ := id hC
  have hfree := hperm.length_eq
  have hal : s.allocated.length = 3 := by
    show s₃.allocated.length = 3
    rw [hal₃]
    rfl
  rw [List.length_append, hal, hlen] at hfree
  have h14 : free.length = 14 := by omega
  exact ⟨s, d, free, hc, h14, hex,
    (leaksNothing_iff hL hboot hrun hex).2 ⟨free, hc, .inr h14.ge⟩⟩

/-- With two frames, the page directory is lost. -/
theorem not_leaksNothing : ¬ ∀ (data end_ trapret forkret : ℕ) (mem : ℕ → ℕ) (s₀ : Kmem)
    (es : List Alloc.Event) (proc : Slot) (k : Kernel), Layout data →
    kinit end_ partA.stride (Kmem.boot mem) = .ok s₀ →
    Run (Alloc.Step partA end_) s₀ es k.kmem →
    Exhausts data end_ trapret forkret proc k →
    LeaksNothing data end_ trapret forkret proc k := by
  intro h
  obtain ⟨s₀, hboot, hex, hchain⟩ : ∃ s₀,
    kinit 0xFFD000 partA.stride (Kmem.boot fun _ => 0) = .ok s₀ ∧
      Exhausts 0x101000 0xFFD000 0 0 0 (booted s₀) ∧
      Chain 0 s₀.next s₀.freelist [0xFFF000, 0xFFD000] :=
    ⟨_, rfl, rfl, rfl, by decide, rfl, by decide, rfl⟩
  have hL : Layout 0x101000 := ⟨by decide, by decide, by decide⟩
  have hstride : 0 < partA.stride := by decide
  have hF := Alloc.frames_of_kinit hstride hboot
  have hC := (Alloc.kinit_conserved hstride hboot).1
  have hleaks := h _ _ _ _ _ s₀ [] 0 (booted s₀) hL hboot (.nil _) hex
  rw [leaksNothing_iff_length hL hF hC hchain hex] at hleaks
  exact absurd hleaks (by decide)

end Fork

end OsProjects.Vm
