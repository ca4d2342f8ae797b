import OsProjects.Alloc.Model
import OsProjects.Foundation.Chain

/-!
# Conservation of physical frames

The invariant is `Conserved frames s`: the free list is a chain, and its cells together with the
logged frames are the managed frames, each exactly once.  One lemma for each operation says what
it does to the two lists (`kfree_spec`, `kallocA_spec`, `kallocB_spec`); the step lemma and the run
lemma follow from these alone.
-/

namespace OsProjects.Alloc

open List (Perm)

/-- The frames `kinit` puts on the free list.  A page at address `0` would be lost, its address
being `NULL`. -/
def managedFrames (end_ stride : ℕ) : List ℕ :=
  (kinitPages end_ stride).filter (· ≠ 0)

/-- The free list is a chain, and the free and the logged frames are the managed ones. -/
def Conserved (frames : List ℕ) (s : Kmem) : Prop :=
  ∃ free, Chain 0 s.next s.freelist free ∧ (free ++ s.allocated).Perm frames

/-! ### The frames passed to `kfree` at boot -/

theorem kinitPages_sublist (end_ stride : ℕ) :
    (kinitPages end_ stride).Sublist
      (List.range' (pgroundup end_) (phystop / pgsize + 1) stride) :=
  List.takeWhile_sublist _

theorem kinitPages_nodup {stride : ℕ} (end_ : ℕ) (h : 0 < stride) :
    (kinitPages end_ stride).Nodup :=
  (kinitPages_sublist end_ stride).nodup (List.nodup_range' stride h)

theorem managedFrames_nodup {stride : ℕ} (end_ : ℕ) (h : 0 < stride) :
    (managedFrames end_ stride).Nodup :=
  (kinitPages_nodup end_ h).filter _

theorem managedFrames_length_le (end_ stride : ℕ) :
    (managedFrames end_ stride).length ≤ phystop / pgsize + 1 := by
  calc (managedFrames end_ stride).length
      ≤ (kinitPages end_ stride).length := List.length_filter_le _ _
    _ ≤ (List.range' (pgroundup end_) (phystop / pgsize + 1) stride).length :=
        (kinitPages_sublist end_ stride).length_le
    _ = phystop / pgsize + 1 := List.length_range'

theorem managedFrames_length_lt (end_ stride : ℕ) :
    (managedFrames end_ stride).length < allocCap :=
  (managedFrames_length_le end_ stride).trans_lt (by decide)

/-! ### The log -/

theorem allocated_length (s : Kmem) : s.allocated.length = s.allocSize := by
  simp [Kmem.allocated]

theorem getElem_allocated (s : Kmem) {i : ℕ} (h : i < s.allocated.length) :
    s.allocated[i] = s.allocList i := by
  simp [Kmem.allocated]

/-- The inner loop of the removal, entry by entry. -/
theorem shiftDown_apply (a : ℕ → ℕ) (i size k : ℕ) :
    shiftDown a i size k = if i ≤ k ∧ k + 1 < size then a (k + 1) else a k := by
  unfold shiftDown
  generalize hn : size - (i + 1) = n
  induction n generalizing a i with
  | zero =>
    have : ¬ (i ≤ k ∧ k + 1 < size) := by omega
    simp [this]
  | succ n ih =>
    rw [List.range'_succ, List.foldl_cons, ih _ (i + 1) (by omega)]
    simp only [Function.update_apply]
    split_ifs <;> first | rfl | omega | (congr 1; omega)

/-- The removal loop erases the first entry equal to `r` from the log. -/
theorem unlogFrame_allocated (r : ℕ) (s : Kmem) :
    (unlogFrame r s).allocated = s.allocated.erase r := by
  unfold unlogFrame
  split
  · rename_i i hi
    obtain ⟨hir, hilt, hfirst⟩ := List.find?_range_eq_some.1 hi
    have hlt : i < s.allocSize := List.mem_range.1 hilt
    have hidx : s.allocated.idxOf? r = some i := by
      refine List.idxOf?_eq_some_iff.2 ⟨by rwa [allocated_length], ?_, fun j hj => ?_⟩
      · simpa [getElem_allocated] using hir
      · simpa [getElem_allocated] using hfirst j hj
    have hlen : (s.allocated.eraseIdx i).length = s.allocSize - 1 := by
      rw [List.length_eraseIdx_of_lt (by rwa [allocated_length]), allocated_length]
    rw [List.erase_eq_eraseIdx, hidx]
    refine List.ext_getElem (by rw [allocated_length, hlen]) fun k hk hk' => ?_
    have hk : k < s.allocSize - 1 := by simpa only [allocated_length] using hk
    rw [getElem_allocated, List.getElem_eraseIdx]
    simp only [shiftDown_apply, getElem_allocated]
    split_ifs <;> first | rfl | omega
  · rename_i hnone
    rw [List.erase_of_not_mem]
    intro hr
    obtain ⟨i, hi, hir⟩ := List.mem_map.1 hr
    simpa [hir] using List.find?_eq_none.1 hnone i hi

@[simp] theorem unlogFrame_next (r : ℕ) (s : Kmem) : (unlogFrame r s).next = s.next := by
  unfold unlogFrame; split <;> rfl

@[simp] theorem unlogFrame_freelist (r : ℕ) (s : Kmem) :
    (unlogFrame r s).freelist = s.freelist := by
  unfold unlogFrame; split <;> rfl

/-- Below the capacity, logging appends. -/
theorem logFrame_spec (r : ℕ) {s : Kmem} (h : s.allocSize < allocCap) :
    ∃ t, logFrame r s = .ok t ∧ t.next = s.next ∧ t.freelist = s.freelist ∧
      t.allocated = s.allocated ++ [r] := by
  refine ⟨_, if_pos h, rfl, rfl, ?_⟩
  have hold : ∀ i ∈ List.range s.allocSize,
      Function.update s.allocList s.allocSize r i = s.allocList i := fun i hi =>
    Function.update_of_ne (List.mem_range.1 hi).ne _ _
  simp only [Kmem.allocated, List.range_succ, List.map_append, List.map_congr_left hold]
  simp

/-! ### `kfree` -/

/-- The check at the top of `kfree`. -/
def Valid (end_ v : ℕ) : Prop := v % pgsize = 0 ∧ end_ ≤ v ∧ v < phystop

theorem valid_of_kfree_ok {end_ v : ℕ} {s t : Kmem} (h : kfree end_ v s = .ok t) :
    Valid end_ v := by
  unfold kfree at h
  split at h
  · cases h
  · unfold Valid; omega

/-- Distinct aligned frames do not overlap, so the junk of `memset` stays in its frame. -/
theorem memsetJunk_of_ne {v a : ℕ} (next : ℕ → ℕ) (hv : v % pgsize = 0) (ha : a % pgsize = 0)
    (hne : a ≠ v) : memsetJunk v next a = next a := by
  refine if_neg fun h => ?_
  unfold pgsize at *
  omega

/-- Freeing pushes the frame on the free list and erases it from the log. -/
theorem kfree_spec {end_ v : ℕ} {s : Kmem} {free : List ℕ} (hv : Valid end_ v) (h0 : v ≠ 0)
    (hc : Chain 0 s.next s.freelist free) (hal : ∀ a ∈ free, a % pgsize = 0) (hnot : v ∉ free) :
    ∃ t, kfree end_ v s = .ok t ∧ Chain 0 t.next t.freelist (v :: free) ∧
      t.allocated = s.allocated.erase v := by
  obtain ⟨hmod, hend, hstop⟩ := hv
  have hok : ¬ (v % pgsize ≠ 0 ∨ v < end_ ∨ phystop ≤ v) := by omega
  refine ⟨_, if_neg hok, ?_, unlogFrame_allocated _ _⟩
  rw [unlogFrame_next, unlogFrame_freelist]
  refine Chain.push (hc.congr fun a ha => ?_) hnot h0
  exact memsetJunk_of_ne _ hmod (hal a ha) (by rintro rfl; exact hnot ha)

/-! ### `kalloc` -/

/-- What a `kalloc` does on a non-empty free list: it moves one cell to the end of the log. -/
def Takes (kalloc : Kmem → Except Fault (ℕ × Kmem)) (s : Kmem) (free : List ℕ) : Prop :=
  ∃ l₁ r l₂ t, free = l₁ ++ r :: l₂ ∧ kalloc s = .ok (r, t) ∧
    Chain 0 t.next t.freelist (l₁ ++ l₂) ∧ t.allocated = s.allocated ++ [r]

theorem kallocA_nil {s : Kmem} (hc : Chain 0 s.next s.freelist []) :
    PartA.kalloc s = .ok (0, s) := by
  simp only [PartA.kalloc, Chain.nil_iff.1 hc, ne_eq, not_true, if_false]
  rfl

theorem kallocA_spec {s : Kmem} {free : List ℕ} (hc : Chain 0 s.next s.freelist free)
    (hne : free ≠ []) (hcap : s.allocSize < allocCap) : Takes PartA.kalloc s free := by
  obtain ⟨r, rest, rfl⟩ := List.exists_cons_of_ne_nil hne
  obtain ⟨hr, hr0, hrest⟩ := hc
  obtain ⟨t, ht, htn, htf, hta⟩ := logFrame_spec r (s := { s with freelist := s.next r }) hcap
  refine ⟨[], r, rest, t, rfl, ?_, ?_, hta⟩
  · simp only [PartA.kalloc, hr, ne_eq, hr0, not_false_eq_true, if_true, ht]
    rfl
  · rw [htn, htf]
    exact hrest

theorem countFree_eq {next : ℕ → ℕ} {p : ℕ} {free : List ℕ} (hc : Chain 0 next p free)
    {fuel : ℕ} (hf : free.length < fuel) : countFree next fuel p = .ok free.length := by
  induction free generalizing p fuel with
  | nil =>
    obtain ⟨fuel, rfl⟩ := Nat.exists_eq_add_of_lt hf
    simp [countFree, Chain.nil_iff.1 hc]
  | cons a l ih =>
    obtain ⟨fuel, rfl⟩ : ∃ n, fuel = n + 1 := ⟨fuel - 1, by simp at hf; omega⟩
    obtain ⟨rfl, hp, hl⟩ := hc
    rw [countFree, if_neg hp, ih hl (by simpa using hf)]
    rfl

theorem advance_eq {next : ℕ → ℕ} {p : ℕ} {free : List ℕ} (hc : Chain 0 next p free) {y : ℕ}
    (hy : y < free.length) : advance next y p = .ok free[y] := by
  induction y generalizing p free with
  | zero =>
    obtain ⟨a, l, rfl⟩ := List.exists_cons_of_ne_nil (List.ne_nil_of_length_pos hy)
    simp [advance, hc.1]
  | succ y ih =>
    cases free with
    | nil => simp at hy
    | cons a l =>
      obtain ⟨rfl, hp, hl⟩ := hc
      rw [advance, if_neg hp, ih hl (by simpa using hy)]
      rfl

/-- The search for the predecessor finds the cell in front of `r`. -/
theorem findPred_eq {next : ℕ → ℕ} {p b r : ℕ} {l₁ l₂ : List ℕ}
    (hc : Chain 0 next p (l₁ ++ b :: r :: l₂)) (fuel : ℕ) (hf : l₁.length < fuel) :
    findPred next r fuel p = .ok b := by
  induction l₁ generalizing p fuel with
  | nil =>
    obtain ⟨fuel, rfl⟩ := Nat.exists_eq_add_of_lt hf
    obtain ⟨rfl, hb, hr, -⟩ := hc
    simp [findPred, hb, hr]
  | cons a l₁ ih =>
    obtain ⟨fuel, rfl⟩ : ∃ n, fuel = n + 1 := ⟨fuel - 1, by simp at hf; omega⟩
    have hnd := hc.nodup
    obtain ⟨rfl, hp, hl⟩ := hc
    -- `p` is not in front of `r`, the cell after `p` being an earlier one
    have hne : next p ≠ r := by
      intro hpr
      cases l₁ with
      | nil =>
        have : b = r := by simpa [hpr] using hl.1.symm
        simp [this] at hnd
      | cons c l₁ =>
        have : c = r := by simpa [hpr] using hl.1.symm
        simp [this] at hnd
    rw [findPred, if_neg hp, if_neg hne, ih hl fuel (by simpa using hf)]

theorem takeOut_spec {s : Kmem} {r : ℕ} {l₁ l₂ : List ℕ}
    (hc : Chain 0 s.next s.freelist (l₁ ++ r :: l₂)) (hf : l₁.length < pointers) :
    ∃ t, takeOut r s = .ok t ∧ Chain 0 t.next t.freelist (l₁ ++ l₂) ∧
      t.allocated = s.allocated := by
  rcases List.eq_nil_or_concat l₁ with rfl | ⟨l, b, rfl⟩
  · obtain ⟨hr, -, hl⟩ := hc
    exact ⟨_, if_pos hr, hl, rfl⟩
  · rw [List.concat_eq_append] at *
    have hc' : Chain 0 s.next s.freelist (l ++ b :: r :: l₂) := by simpa using hc
    have hne : s.freelist ≠ r := by
      intro h
      have hnd := hc'.nodup
      cases l with
      | nil => simp [← hc'.1, h] at hnd
      | cons c l => simp [← hc'.1, h] at hnd
    have hb : b ≠ 0 := hc'.ne_null b (by simp)
    have hfind := findPred_eq hc' pointers (by simp at hf; omega)
    refine ⟨{ s with next := Function.update s.next b (s.next r) }, ?_, ?_, rfl⟩
    · simp only [takeOut, if_neg hne, hfind]
      simp [bind, Except.bind, hb, pure, Except.pure]
    · simpa using hc'.unlink

theorem xv6Rand_toInt_nonneg (a : BitVec 32) : 0 ≤ (xv6Rand a).toInt := by
  have hlt : (xv6Rand a).toNat < 2 ^ 31 := by
    simp only [xv6Rand, BitVec.toNat_umod]
    exact Nat.mod_lt _ (by decide)
  rw [BitVec.toInt_eq_toNat_of_lt (by omega)]
  exact Int.natCast_nonneg _

/-- The position drawn by `kalloc` is a position of the list. -/
theorem tmod_toNat_lt (a : BitVec 32) {n : ℕ} (hn : n ≠ 0) :
    ((xv6Rand a).toInt.tmod n).toNat < n := by
  have h := xv6Rand_toInt_nonneg a
  rw [Int.tmod_eq_emod_of_nonneg h]
  have h1 := Int.emod_lt_of_pos (xv6Rand a).toInt (b := (n : ℤ)) (by omega)
  omega

theorem kallocB_spec {s : Kmem} {free : List ℕ} (hc : Chain 0 s.next s.freelist free)
    (hne : free ≠ []) (hcap : s.allocSize < allocCap) (hlen : free.length < pointers) :
    Takes PartB.kalloc s free := by
  have hlen0 : free.length ≠ 0 := by simpa using hne
  have hy := tmod_toNat_lt s.rand hlen0
  set y := ((xv6Rand s.rand).toInt.tmod free.length).toNat with hydef
  obtain ⟨l₁, l₂, hsplit, hl₁⟩ : ∃ l₁ l₂, free = l₁ ++ free[y] :: l₂ ∧ l₁.length = y :=
    ⟨free.take y, free.drop (y + 1), by simp, by simp; omega⟩
  set r := free[y] with hr
  have hr0 : r ≠ 0 := hc.ne_null r (List.getElem_mem hy)
  obtain ⟨s₁, hs₁, hn₁, hf₁, ha₁⟩ :=
    logFrame_spec r (s := { s with rand := xv6Rand s.rand }) hcap
  have hc₁ : Chain 0 s₁.next s₁.freelist (l₁ ++ r :: l₂) := by rw [hn₁, hf₁, ← hsplit]; exact hc
  obtain ⟨t, ht, htc, hta⟩ := takeOut_spec hc₁ (by omega)
  refine ⟨l₁, r, l₂, t, hsplit, ?_, htc, hta.trans ha₁⟩
  have hadv := advance_eq hc hy
  simp only [PartB.kalloc, countFree_eq hc hlen, bind, Except.bind, if_neg hlen0, ← hydef, hadv,
    ← hr, hs₁, ht, pure, Except.pure]
  simp [hr0]

/-- Both allocators move a free cell to the log whenever they may be called on a free one. -/
theorem kalloc_spec {P : Part} (hP : P = partA ∨ P = partB) {s : Kmem} {free : List ℕ}
    (hc : Chain 0 s.next s.freelist free) (hcap : s.allocSize < allocCap)
    (hlen : free.length < pointers) (hcall : P.callable s) :
    (free = [] ∧ P.kalloc s = .ok (0, s)) ∨ Takes P.kalloc s free := by
  rcases hP with rfl | rfl
  · rcases eq_or_ne free [] with rfl | hne
    · exact .inl ⟨rfl, kallocA_nil hc⟩
    · exact .inr (kallocA_spec hc hne hcap)
  · have hne : free ≠ [] := fun h => hcall (hc.eq_nil_iff.1 h)
    exact .inr (kallocB_spec hc hne hcap hlen)

/-! ### Boot -/

theorem mem_managedFrames {end_ stride v : ℕ} :
    v ∈ managedFrames end_ stride ↔ v ∈ kinitPages end_ stride ∧ v ≠ 0 := by
  simp [managedFrames]

/-- The boot loop pushes its pages one by one. -/
theorem kinit_loop {end_ : ℕ} {ps : List ℕ} {s t : Kmem} (free : List ℕ)
    (hk : ps.foldlM (fun s p => kfree end_ p s) s = .ok t) (hps : ∀ p ∈ ps, p ≠ 0)
    (hnd : (ps ++ free).Nodup) (hal : ∀ a ∈ free, a % pgsize = 0)
    (hc : Chain 0 s.next s.freelist free) (hsz : s.allocated = []) :
    (∃ free', Chain 0 t.next t.freelist free' ∧ free'.Perm (ps ++ free)) ∧ t.allocated = [] ∧
      ∀ p ∈ ps, Valid end_ p := by
  induction ps generalizing s free with
  | nil =>
    cases hk
    exact ⟨⟨free, hc, .refl _⟩, hsz, by simp⟩
  | cons p ps ih =>
    rw [List.foldlM_cons] at hk
    cases hp : kfree end_ p s with
    | error e => simp [hp, bind, Except.bind] at hk
    | ok s₁ =>
      have hv := valid_of_kfree_ok hp
      have hpf : p ∉ free := fun h => by simp [h] at hnd
      obtain ⟨s₂, hs₂, hc₂, ha₂⟩ := kfree_spec hv (hps p (by simp)) hc hal hpf
      obtain rfl : s₁ = s₂ := by simpa [hp] using hs₂
      have hnd' : (ps ++ p :: free).Nodup := (List.perm_middle.nodup_iff).2 (by simpa using hnd)
      obtain ⟨⟨free', hf', hperm⟩, ht, hvs⟩ :=
        ih (p :: free) (by simpa [hp, bind, Except.bind] using hk)
        (fun q hq => hps q (by simp [hq])) hnd'
        (List.forall_mem_cons.2 ⟨hv.1, hal⟩) hc₂ (by rw [ha₂, hsz]; rfl)
      exact ⟨⟨free', hf', hperm.trans List.perm_middle⟩, ht, List.forall_mem_cons.2 ⟨hv, hvs⟩⟩

/-- A page at address `0` can only be the first one. -/
theorem kinitPages_eq_cons_of_zero_mem {end_ stride : ℕ}
    (h : 0 ∈ kinitPages end_ stride) : ∃ ps, kinitPages end_ stride = 0 :: ps := by
  obtain ⟨i, -, hi⟩ := List.mem_range'.1 ((kinitPages_sublist end_ stride).subset h)
  have hpg : pgroundup end_ = 0 := by omega
  unfold kinitPages at h ⊢
  rw [hpg, List.range'_succ, List.takeWhile_cons] at h ⊢
  split at h
  · exact ⟨_, if_pos ‹_›⟩
  · simp at h

/-- Freeing the page at address `0` leaves an empty free list empty. -/
theorem kfree_zero_boot {end_ : ℕ} {mem : ℕ → ℕ} {s : Kmem}
    (h : kfree end_ 0 (Kmem.boot mem) = .ok s) : s.freelist = 0 ∧ s.allocated = [] := by
  unfold kfree at h
  split at h
  · cases h
  · obtain rfl := Except.ok.inj h
    exact ⟨unlogFrame_freelist _ _, unlogFrame_allocated _ _⟩

/-- After `kinit` every managed frame is free, and no page that `kfree` rejects was passed. -/
theorem kinit_conserved {end_ stride : ℕ} {mem : ℕ → ℕ} {s : Kmem} (hs : 0 < stride)
    (hk : kinit end_ stride (Kmem.boot mem) = .ok s) :
    Conserved (managedFrames end_ stride) s ∧ s.allocated = [] ∧
      ∀ v ∈ managedFrames end_ stride, Valid end_ v := by
  have hnd := kinitPages_nodup end_ hs
  unfold kinit at hk
  -- a page at address 0 is freed first, onto the empty list
  obtain ⟨ps, s₁, hman, hps, hpsnd, hfree, halloc, hloop⟩ : ∃ ps s₁,
      managedFrames end_ stride = ps ∧ (∀ p ∈ ps, p ≠ 0) ∧ ps.Nodup ∧ s₁.freelist = 0 ∧
        s₁.allocated = [] ∧ ps.foldlM (fun s p => kfree end_ p s) s₁ = .ok s := by
    by_cases h0 : 0 ∈ kinitPages end_ stride
    · obtain ⟨ps, hps⟩ := kinitPages_eq_cons_of_zero_mem h0
      rw [hps] at hk hnd
      obtain ⟨h0ps, hndps⟩ := List.nodup_cons.1 hnd
      have hps0 : ∀ p ∈ ps, p ≠ 0 := fun p hp h => h0ps (h ▸ hp)
      rw [List.foldlM_cons] at hk
      cases hk0 : kfree end_ 0 (Kmem.boot mem) with
      | error e => simp [hk0, bind, Except.bind] at hk
      | ok s₁ =>
        obtain ⟨hf, ha⟩ := kfree_zero_boot hk0
        refine ⟨ps, s₁, ?_, hps0, hndps, hf, ha, by simpa [hk0, bind, Except.bind] using hk⟩
        simpa [managedFrames, hps, List.filter_eq_self] using hps0
    · have hps0 : ∀ p ∈ kinitPages end_ stride, p ≠ 0 := by
        rintro p hp rfl
        exact h0 hp
      refine ⟨_, _, ?_, hps0, hnd, rfl, rfl, hk⟩
      simpa [managedFrames, List.filter_eq_self] using hps0
  obtain ⟨⟨free, hf, hperm⟩, ha, hv⟩ :=
    kinit_loop [] hloop hps (by simpa using hpsnd) (by simp) hfree halloc
  rw [hman]
  exact ⟨⟨free, hf, by simpa [ha] using hperm⟩, ha, hv⟩

/-! ### Runs -/

/-- The managed frames: distinct, aligned, accepted by `kfree`, fewer than `alloc_list` holds. -/
structure Frames (end_ : ℕ) (frames : List ℕ) : Prop where
  nodup : frames.Nodup
  valid : ∀ v ∈ frames, Valid end_ v
  ne_zero : ∀ v ∈ frames, v ≠ 0
  length_lt : frames.length < allocCap

theorem frames_of_kinit {end_ stride : ℕ} {mem : ℕ → ℕ} {s : Kmem} (hs : 0 < stride)
    (hk : kinit end_ stride (Kmem.boot mem) = .ok s) :
    Frames end_ (managedFrames end_ stride) where
  nodup := managedFrames_nodup end_ hs
  valid := (kinit_conserved hs hk).2.2
  ne_zero _ hv := (mem_managedFrames.1 hv).2
  length_lt := managedFrames_length_lt end_ stride

section Steps

variable {P : Part} {end_ : ℕ} {frames : List ℕ} {s t : Kmem}

theorem Conserved.length_add {free : List ℕ} (hperm : (free ++ s.allocated).Perm frames) :
    free.length + s.allocSize = frames.length := by
  rw [← hperm.length_eq, List.length_append, allocated_length]

/-- Freeing a logged frame succeeds and keeps the invariant. -/
theorem kfree_conserved (hF : Frames end_ frames) (h : Conserved frames s) {v : ℕ}
    (hv : v ∈ s.allocated) :
    ∃ t, kfree end_ v s = .ok t ∧ Conserved frames t ∧ t.allocated = s.allocated.erase v := by
  obtain ⟨free, hc, hperm⟩ := h
  have hnd := hperm.nodup_iff.2 hF.nodup
  have hmem : ∀ a, a ∈ free ∨ a ∈ s.allocated → a ∈ frames := fun a ha =>
    hperm.subset (List.mem_append.2 ha)
  have hvf : v ∉ free := fun hf => (List.nodup_append'.1 hnd).2.2 hf hv
  obtain ⟨t, ht, htc, hta⟩ := kfree_spec (hF.valid v (hmem v (.inr hv)))
    (hF.ne_zero v (hmem v (.inr hv))) hc (fun a ha => (hF.valid a (hmem a (.inl ha))).1) hvf
  refine ⟨t, ht, ⟨v :: free, htc, ?_⟩, hta⟩
  calc (v :: free ++ t.allocated).Perm (free ++ v :: s.allocated.erase v) := by
        rw [hta]; exact List.perm_middle.symm
    _ |>.Perm (free ++ s.allocated) := (List.perm_cons_erase hv).symm.append_left free
    _ |>.Perm frames := hperm

/-- A permitted `kalloc` succeeds and keeps the invariant; a frame it returns was free. -/
theorem kalloc_conserved (hP : P = partA ∨ P = partB) (hF : Frames end_ frames)
    (h : Conserved frames s) (hcall : P.callable s) :
    ∃ r t, P.kalloc s = .ok (r, t) ∧ Conserved frames t ∧
      ((r = 0 ∧ t = s) ∨ (r ∉ s.allocated ∧ t.allocated = s.allocated ++ [r])) := by
  obtain ⟨free, hc, hperm⟩ := h
  have hlen := Conserved.length_add hperm
  have hbound := hF.length_lt
  have hwalk : free.length < pointers :=
    lt_of_lt_of_le (by omega : free.length < allocCap) (by decide)
  rcases Nat.eq_zero_or_pos free.length with h0 | hpos
  · -- nothing is free: part_a returns NULL, part_b is not called
    obtain rfl := List.length_eq_zero_iff.1 h0
    rcases hP with rfl | rfl
    · exact ⟨0, s, kallocA_nil hc, ⟨[], hc, hperm⟩, .inl ⟨rfl, rfl⟩⟩
    · exact absurd hc hcall
  · rcases kalloc_spec hP hc (by omega) hwalk hcall with ⟨rfl, -⟩ |
      ⟨l₁, r, l₂, t, rfl, ht, htc, hta⟩
    · simp at hpos
    have hnd := hperm.nodup_iff.2 hF.nodup
    refine ⟨r, t, ht, ⟨l₁ ++ l₂, htc, ?_⟩, .inr ⟨fun hr => ?_, hta⟩⟩
    · calc (l₁ ++ l₂ ++ t.allocated).Perm (l₁ ++ l₂ ++ (r :: s.allocated)) := by
            rw [hta]; exact List.perm_append_singleton r s.allocated |>.append_left _
        _ |>.Perm (r :: (l₁ ++ l₂) ++ s.allocated) := List.perm_middle
        _ |>.Perm (l₁ ++ r :: l₂ ++ s.allocated) := List.perm_middle.symm.append_right _
        _ |>.Perm frames := hperm
    · exact (List.nodup_append'.1 hnd).2.2 (by simp) hr

/-- Writes into allocated frames do not reach the cells of the free list. -/
theorem write_conserved (hF : Frames end_ frames) (h : Conserved frames s) {next : ℕ → ℕ}
    (hw : ∀ a, ¬ s.Owned a → next a = s.next a) : Conserved frames { s with next := next } := by
  obtain ⟨free, hc, hperm⟩ := h
  refine ⟨free, hc.congr fun a ha => hw a ?_, hperm⟩
  rintro ⟨v, hv, hva⟩
  have hnd := hperm.nodup_iff.2 hF.nodup
  have hva' : a ≠ v := by
    rintro rfl
    exact (List.nodup_append'.1 hnd).2.2 ha hv
  have h1 := (hF.valid a (hperm.subset (List.mem_append_left _ ha))).1
  have h2 := (hF.valid v (hperm.subset (List.mem_append_right _ hv))).1
  unfold pgsize at *
  omega

/-- One event keeps the invariant. -/
theorem conserved_step (hP : P = partA ∨ P = partB) (hF : Frames end_ frames)
    (h : Conserved frames s) {e : Event} (he : Step P end_ s e t) : Conserved frames t := by
  cases e with
  | kalloc r =>
    obtain ⟨r', t', ht', hc, -⟩ := kalloc_conserved hP hF h he.1
    obtain ⟨rfl, rfl⟩ := Prod.mk.inj (Except.ok.inj (he.2.symm.trans ht'))
    exact hc
  | kfree v =>
    obtain ⟨t', ht', hc, -⟩ := kfree_conserved hF h he.1
    obtain rfl := Except.ok.inj (he.2.symm.trans ht')
    exact hc
  | srand seed => obtain rfl := he; exact h
  | write next => obtain ⟨hw, rfl⟩ := he; exact write_conserved hF h hw

/-- A frame leaves the log through `kfree` only. -/
theorem mem_allocated_step (hP : P = partA ∨ P = partB) (hF : Frames end_ frames)
    (h : Conserved frames s) {e : Event} (he : Step P end_ s e t) {r : ℕ} (hr : r ∈ s.allocated)
    (hne : e ≠ .kfree r) : r ∈ t.allocated := by
  cases e with
  | kalloc r' =>
    obtain ⟨r', t', ht', -, hcase⟩ := kalloc_conserved hP hF h he.1
    obtain ⟨rfl, rfl⟩ := Prod.mk.inj (Except.ok.inj (he.2.symm.trans ht'))
    rcases hcase with ⟨-, rfl⟩ | ⟨-, ha⟩
    · exact hr
    · simp [ha, hr]
  | kfree v =>
    obtain ⟨t', ht', -, ha⟩ := kfree_conserved hF h he.1
    obtain rfl := Except.ok.inj (he.2.symm.trans ht')
    rw [ha]
    exact (List.mem_erase_of_ne (by rintro rfl; exact hne rfl)).2 hr
  | srand seed => obtain rfl := he; exact hr
  | write next => obtain ⟨-, rfl⟩ := he; exact hr

variable {es : List Event}

theorem conserved_run (hP : P = partA ∨ P = partB) (hF : Frames end_ frames)
    (h : Conserved frames s) (hr : Run (Step P end_) s es t) : Conserved frames t :=
  hr.invariant h fun _ _ _ hi he => conserved_step hP hF hi he

theorem mem_allocated_run (hP : P = partA ∨ P = partB) (hF : Frames end_ frames)
    (h : Conserved frames s) (hr : Run (Step P end_) s es t) {r : ℕ} (hmem : r ∈ s.allocated)
    (hne : .kfree r ∉ es) : r ∈ t.allocated := by
  induction hr with
  | nil s => exact hmem
  | cons he _ ih =>
    obtain ⟨h1, h2⟩ := not_or.1 (fun hm => hne (List.mem_cons.2 hm))
    exact ih (conserved_step hP hF h he) (mem_allocated_step hP hF h he hmem (Ne.symm h1)) h2

/-- Between two calls that return the same frame, the frame was freed. -/
theorem kfree_mem_between (hP : P = partA ∨ P = partB) (hF : Frames end_ frames)
    (h : Conserved frames s) {r : ℕ} (hr0 : r ≠ 0)
    (hr : Run (Step P end_) s (.kalloc r :: es ++ [.kalloc r]) t) : .kfree r ∈ es := by
  obtain ⟨s₂, hr₂, he₂⟩ := Run.snoc_iff.1 hr
  obtain ⟨s₁, he₁, hr₁⟩ := Run.cons_iff.1 hr₂
  have h₁ := conserved_step hP hF h he₁
  by_contra hne
  obtain ⟨r', t', ht', -, hcase⟩ := kalloc_conserved hP hF h he₁.1
  obtain ⟨rfl, rfl⟩ := Prod.mk.inj (Except.ok.inj (he₁.2.symm.trans ht'))
  have hmem : r ∈ s₁.allocated := by
    rcases hcase with ⟨h0, -⟩ | ⟨-, ha⟩
    · exact absurd h0 hr0
    · simp [ha]
  -- still logged when the second call returns it, although that call returns a free frame
  have hmem₂ := mem_allocated_run hP hF h₁ hr₁ hmem hne
  obtain ⟨r', t', ht', -, hcase⟩ :=
    kalloc_conserved hP hF (conserved_run hP hF h₁ hr₁) he₂.1
  obtain ⟨rfl, rfl⟩ := Prod.mk.inj (Except.ok.inj (he₂.2.symm.trans ht'))
  rcases hcase with ⟨h0, -⟩ | ⟨hn, -⟩
  · exact hr0 h0
  · exact hn hmem₂

end Steps

theorem Part.stride_pos {P : Part} (hP : P = partA ∨ P = partB) : 0 < P.stride := by
  rcases hP with rfl | rfl <;> decide

/-- **Frame conservation.** After `kinit`, and after any calls, seeds and writes of the owners, the
free list is a chain without repetition, the log has no repetition, and they divide the managed
frames between them; the calls the assumptions permit succeed; and no frame is handed out twice
without being freed in between. -/
theorem frames_conserved {P : Part} (hP : P = partA ∨ P = partB) {end_ : ℕ} {mem : ℕ → ℕ}
    {s₀ s : Kmem} {es : List Event} (hk : kinit end_ P.stride (Kmem.boot mem) = .ok s₀)
    (hr : Run (Step P end_) s₀ es s) :
    (∃ free, Chain 0 s.next s.freelist free ∧ free.Nodup ∧ s.allocated.Nodup ∧
      free.Disjoint s.allocated ∧
      (∀ a, a ∈ free ∨ a ∈ s.allocated ↔ a ∈ managedFrames end_ P.stride)) ∧
    s.allocSize ≤ (managedFrames end_ P.stride).length ∧
    (managedFrames end_ P.stride).length < allocCap ∧
    (∀ v ∈ s.allocated, ∃ t, kfree end_ v s = .ok t) ∧
    (P.callable s → ∃ r t, P.kalloc s = .ok (r, t)) ∧
    ∀ r es₁ es₂ es₃, r ≠ 0 → es = es₁ ++ .kalloc r :: es₂ ++ .kalloc r :: es₃ →
      .kfree r ∈ es₂ := by
  have hs := P.stride_pos hP
  have hF := frames_of_kinit hs hk
  have h₀ := (kinit_conserved hs hk).1
  have h := conserved_run hP hF h₀ hr
  refine ⟨?_, ?_, hF.length_lt, fun v hv => ?_, fun hcall => ?_, ?_⟩
  · obtain ⟨free, hc, hperm⟩ := h
    obtain ⟨h1, h2, h3⟩ := List.nodup_append'.1 (hperm.nodup_iff.2 hF.nodup)
    exact ⟨free, hc, h1, h2, h3, fun a => by rw [← List.mem_append, hperm.mem_iff]⟩
  · obtain ⟨free, -, hperm⟩ := h
    have := Conserved.length_add hperm
    omega
  · obtain ⟨t, ht, -⟩ := kfree_conserved hF h hv
    exact ⟨t, ht⟩
  · obtain ⟨r, t, ht, -⟩ := kalloc_conserved hP hF h hcall
    exact ⟨r, t, ht⟩
  · rintro r es₁ es₂ es₃ hr0 rfl
    rw [show es₁ ++ Event.kalloc r :: es₂ ++ .kalloc r :: es₃ =
      es₁ ++ ((.kalloc r :: es₂ ++ [.kalloc r]) ++ es₃) by simp] at hr
    obtain ⟨s₁, hr₁, hr₂⟩ := Run.append_iff.1 hr
    obtain ⟨s₂, hr₂, -⟩ := Run.append_iff.1 hr₂
    exact kfree_mem_between hP hF (conserved_run hP hF h₀ hr₁) hr0 hr₂

/-- part_b with two frames at the end of memory: boot, one `kalloc`, the frame freed again. -/
theorem frames_conserved_two_frames :
    ∃ s₀ s v, kinit 0xFFD001 partB.stride (Kmem.boot fun _ => 0) = .ok s₀ ∧
      Run (Step partB 0xFFD001) s₀ [.kalloc v, .kfree v] s ∧
      s.allocSize ≤ (managedFrames 0xFFD001 partB.stride).length := by
  have hrun : ∃ s₀ v t, kinit 0xFFD001 partB.stride (Kmem.boot fun _ => 0) = .ok s₀ ∧
      s₀.freelist ≠ 0 ∧ PartB.kalloc s₀ = .ok (v, t) ∧ v ∈ t.allocated := by
    refine ⟨_, _, _, rfl, ?_, rfl, ?_⟩ <;> decide
  obtain ⟨s₀, v, t, hk, hcall, ht, hv⟩ := hrun
  have hr : Run (Step partB 0xFFD001) s₀ [.kalloc v] t := Run.single_iff.2 ⟨hcall, ht⟩
  obtain ⟨s, hs⟩ := (frames_conserved (.inr rfl) hk hr).2.2.2.1 v hv
  have hr' : Run (Step partB 0xFFD001) s₀ [.kalloc v, .kfree v] s :=
    hr.append (Run.single_iff.2 ⟨hv, hs⟩)
  exact ⟨s₀, s, v, hk, hr', (frames_conserved (.inr rfl) hk hr').2.1⟩

end OsProjects.Alloc
