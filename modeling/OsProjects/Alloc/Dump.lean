import OsProjects.Alloc.Conservation
import OsProjects.Foundation.Bytes

/-!
# dump_allocated

`alloc_list` is the history of the calls without what has been freed since (`allocated_eq_live`),
and `dump_allocated` reports its end (`dumpAllocated_spec`).  The system call takes its pointer with
`argint` and not with `argptr`: it stays inside the caller exactly if the caller asks for it
(`contained_iff`).
-/

namespace OsProjects.Alloc

/-- `dump_allocated`: what it returns, and the words it stores in `frames[0]`, `frames[1]`, ... -/
def dumpAllocated (s : Kmem) (numframes : ℤ) : ℤ × List ℕ :=
  if numframes < 0 ∨ s.allocSize < numframes then (-1, [])
  else (0, (List.range numframes.toNat).map fun index => s.allocList (s.allocSize - index - 1))

/-! ### The history of the calls -/

/-- The frame is freed by one of the calls. -/
def Freed (r : ℕ) (es : List Event) : Prop := Event.kfree r ∈ es

instance decidableFreed (r : ℕ) : (es : List Event) → Decidable (Freed r es)
  | [] => isFalse List.not_mem_nil
  | .kfree v :: es =>
      if h : v = r then isTrue (h ▸ List.mem_cons_self)
      else
        match decidableFreed r es with
        | isTrue h' => isTrue (List.mem_cons_of_mem _ h')
        | isFalse h' => isFalse fun hm =>
            (List.mem_cons.1 hm).elim (fun he => h (Event.kfree.inj he).symm) h'
  | .kalloc _ :: es | .srand _ :: es | .write _ :: es =>
      match decidableFreed r es with
      | isTrue h' => isTrue (List.mem_cons_of_mem _ h')
      | isFalse h' => isFalse fun hm => (List.mem_cons.1 hm).elim nofun h'

/-- The frames returned by the calls of `kalloc` and not freed later, in the order of the calls. -/
def live : List Event → List ℕ
  | [] => []
  | .kalloc r :: es => if r ≠ 0 ∧ ¬Freed r es then r :: live es else live es
  | _ :: es => live es

section Live

variable {es : List Event} {r v : ℕ}

theorem freed_append_iff {e : Event} : Freed r (es ++ [e]) ↔ Freed r es ∨ e = .kfree r := by
  rw [Freed, List.mem_append, List.mem_singleton, eq_comm (a := e)]
  rfl

/-- An event that frees nothing. -/
theorem live_append_singleton {e : Event} (he : ∀ r, e ≠ .kfree r) :
    live (es ++ [e]) = live es ++ live [e] := by
  induction es with
  | nil => rfl
  | cons a es ih =>
    cases a with
    | kalloc r =>
      simp only [List.cons_append, live, freed_append_iff, he, or_false, ih]
      split <;> rfl
    | kfree v | srand seed | write next => exact ih

theorem live_kfree : live (es ++ [.kfree v]) = (live es).filter (· ≠ v) := by
  induction es with
  | nil => rfl
  | cons a es ih =>
    cases a with
    | kalloc r =>
      simp only [List.cons_append, live, freed_append_iff, Event.kfree.injEq, not_or, ih]
      by_cases hr : r ≠ 0 ∧ ¬Freed r es
      · by_cases hv : v = r
        · simp [hr, hv]
        · simp [hr, hv, Ne.symm hv]
      · rw [if_neg hr, if_neg fun h => hr ⟨h.1, h.2.1⟩]
    | kfree w | srand seed | write next => exact ih

end Live

variable {P : Part} {end_ : ℕ} {frames : List ℕ} {mem : ℕ → ℕ} {s₀ s t : Kmem} {es : List Event}

/-- One event does to `alloc_list` what it does to the history. -/
theorem allocated_step (hP : P = partA ∨ P = partB) (hF : Frames end_ frames)
    (h : Conserved frames s) {e : Event} (he : Step P end_ s e t) (hal : s.allocated = live es) :
    t.allocated = live (es ++ [e]) := by
  cases e with
  | kalloc r =>
    obtain ⟨r', t', ht', hc, hcase⟩ := kalloc_conserved hP hF h he.1
    obtain ⟨rfl, rfl⟩ := Prod.mk.inj (Except.ok.inj (he.2.symm.trans ht'))
    rw [live_append_singleton (by simp), ← hal]
    rcases hcase with ⟨rfl, rfl⟩ | ⟨-, ha⟩
    · simp [live]
    · have hr : r ≠ 0 := by
        obtain ⟨free, -, hperm⟩ := hc
        exact hF.ne_zero r (hperm.subset (by simp [ha]))
      have hnot : ¬Freed r [] := List.not_mem_nil
      rw [ha, live, if_pos ⟨hr, hnot⟩, live]
  | kfree v =>
    obtain ⟨t', ht', -, ha⟩ := kfree_conserved hF h he.1
    obtain rfl := Except.ok.inj (he.2.symm.trans ht')
    obtain ⟨free, -, hperm⟩ := h
    have hnd := (List.nodup_append'.1 (hperm.nodup_iff.2 hF.nodup)).2.1
    rw [ha, hnd.erase_eq_filter, hal, live_kfree]
    exact List.filter_congr fun a _ => by simp [bne, BEq.beq]
  | srand seed =>
    obtain rfl := he
    rw [live_append_singleton (by simp), ← hal]
    simp [live, Kmem.allocated]
  | write next =>
    obtain ⟨-, rfl⟩ := he
    rw [live_append_singleton (by simp), ← hal]
    simp [live, Kmem.allocated]

/-- After any calls, `alloc_list` is the live history. -/
theorem allocated_eq_live (hP : P = partA ∨ P = partB)
    (hk : kinit end_ P.stride (Kmem.boot mem) = .ok s₀) (hr : Run (Step P end_) s₀ es s) :
    s.allocated = live es := by
  have hs := P.stride_pos hP
  have hF := frames_of_kinit hs hk
  obtain ⟨h₀, hnil, -⟩ := kinit_conserved hs hk
  have hI := hr.trace_invariant
    (I := fun es s => Conserved (managedFrames end_ P.stride) s ∧ s.allocated = live es)
    ⟨h₀, hnil⟩ fun es s e t h he =>
      ⟨conserved_step hP hF h.1 he, allocated_step hP hF h.1 he h.2⟩
  exact hI.2

/-- The last entries of `alloc_list`, the last one first. -/
theorem dumpAllocated_eq {numframes : ℤ} (h : ¬(numframes < 0 ∨ s.allocSize < numframes)) :
    dumpAllocated s numframes = (0, s.allocated.reverse.take numframes.toNat) := by
  rw [dumpAllocated, if_neg h, Prod.mk.injEq]
  refine ⟨rfl, List.ext_getElem ?_ fun i hi hi' => ?_⟩
  · rw [List.length_map, List.length_range, List.length_take, List.length_reverse,
      allocated_length]
    omega
  · rw [List.length_map, List.length_range] at hi
    rw [List.getElem_map, List.getElem_range, List.getElem_take, List.getElem_reverse,
      getElem_allocated, allocated_length]
    congr 1
    omega

/-- **What dump_allocated reports.**  It fails exactly if the count is negative or larger than the
number of live allocations; otherwise it stores the latest ones in reverse order. -/
theorem dumpAllocated_spec (hP : P = partA ∨ P = partB)
    (hk : kinit end_ P.stride (Kmem.boot mem) = .ok s₀) (hr : Run (Step P end_) s₀ es s)
    (numframes : ℤ) :
    (dumpAllocated s numframes = (-1, []) ↔ numframes < 0 ∨ (live es).length < numframes) ∧
      (¬(numframes < 0 ∨ (live es).length < numframes) →
        dumpAllocated s numframes = (0, (live es).reverse.take numframes.toNat)) := by
  have hlive := allocated_eq_live hP hk hr
  have hsize : s.allocSize = (live es).length := by rw [← hlive, allocated_length]
  rw [← hsize, ← hlive]
  refine ⟨⟨fun h => ?_, fun h => by rw [dumpAllocated, if_pos h]⟩, dumpAllocated_eq⟩
  by_contra hnot
  rw [dumpAllocated_eq hnot] at h
  exact absurd (Prod.mk.inj h).1 (by decide)

/-- Two frames of part_a are allocated and the first is freed. -/
theorem dumpAllocated_spec_two_frames :
    ∃ s : Kmem, dumpAllocated s 1 = (0, [0xFFC000]) := by
  have hrun : ∃ s₀ s₁ s₂ s : Kmem, kinit 0xFFB001 partA.stride (Kmem.boot fun _ => 0) = .ok s₀ ∧
      PartA.kalloc s₀ = .ok (0xFFE000, s₁) ∧ PartA.kalloc s₁ = .ok (0xFFC000, s₂) ∧
      0xFFE000 ∈ s₂.allocated ∧ kfree 0xFFB001 0xFFE000 s₂ = .ok s := by
    refine ⟨_, _, _, _, rfl, rfl, rfl, ?_, rfl⟩
    decide
  obtain ⟨s₀, s₁, s₂, s, hk, h₁, h₂, hmem, h₃⟩ := hrun
  have hr : Run (Step partA 0xFFB001) s₀ [.kalloc 0xFFE000, .kalloc 0xFFC000, .kfree 0xFFE000] s :=
    .cons ⟨trivial, h₁⟩ (.cons ⟨trivial, h₂⟩ (Run.single_iff.2 ⟨hmem, h₃⟩))
  exact ⟨s, (dumpAllocated_spec (.inl rfl) hk hr 1).2 (by decide)⟩

/-! ### The system call -/

/-- The calling process: its size, its stack pointer, and its memory. -/
structure Caller where
  sz : ℕ
  esp : ℕ
  mem : Bytes

/-- `fetchint`, for the process that runs. -/
def fetchint (c : Caller) (addr : ℕ) : Option ℕ :=
  if c.sz ≤ addr ∨ c.sz < (addr + 4) % pointers then none else some (c.mem.word 4 addr)

/-- `argint` -/
def argint (c : Caller) (n : ℕ) : Option ℕ := fetchint c ((c.esp + 4 + 4 * n) % pointers)

/-- An `int`. -/
def toInt (w : ℕ) : ℤ := (BitVec.ofNat 32 w).toInt

/-- The bytes of `frames[0] = w₀; frames[1] = w₁; ...` with their addresses. -/
def storesAt (frames : ℕ) (ws : List ℕ) : List (ℕ × UInt8) :=
  (ws.flatMap (Bytes.leBytes 4)).zipIdx.map fun x => ((frames + x.2) % pointers, x.1)

/-- `sys_dump_allocated`: what it returns, and the stores through the pointer.  A store that hits
the variables of the allocator changes the stores behind it, and is one outside the caller. -/
def sysDumpAllocated (c : Caller) (s : Kmem) : ℤ × List (ℕ × UInt8) :=
  match argint c 0, argint c 1 with
  | some frames, some numframes =>
      let (r, ws) := dumpAllocated s (toInt numframes)
      (r, storesAt frames ws)
  | _, _ => (-1, [])

theorem sysDumpAllocated_eq {c : Caller} {frames numframes : ℕ} (h0 : argint c 0 = some frames)
    (h1 : argint c 1 = some numframes) (s : Kmem) :
    sysDumpAllocated c s = ((dumpAllocated s (toInt numframes)).1,
      storesAt frames (dumpAllocated s (toInt numframes)).2) := by
  rw [sysDumpAllocated, h0, h1]

/-- The call fails without a store, or stores inside the caller only. -/
def Contained (c : Caller) (s : Kmem) : Prop :=
  ((sysDumpAllocated c s).1 = -1 ∧ (sysDumpAllocated c s).2 = []) ∨
    ∀ st ∈ (sysDumpAllocated c s).2, st.1 < c.sz

/-- Stores at consecutive addresses stay below the size exactly if the last one does. -/
theorem storesAt_inside {frames sz : ℕ} {ws : List ℕ} (hf : frames < pointers)
    (hsz : sz < pointers) :
    (∀ st ∈ storesAt frames ws, st.1 < sz) ↔ (ws ≠ [] → frames + 4 * ws.length ≤ sz) := by
  have hlen : (ws.flatMap (Bytes.leBytes 4)).length = 4 * ws.length := by
    rw [List.length_flatMap]
    simp [Nat.mul_comm]
  have hstores : (∀ st ∈ storesAt frames ws, st.1 < sz) ↔
      ∀ k < 4 * ws.length, (frames + k) % pointers < sz := by
    rw [← hlen]
    constructor
    · intro h k hk
      have hb := List.getElem?_eq_getElem hk
      exact h (_, (ws.flatMap (Bytes.leBytes 4))[k])
        (List.mem_map.2 ⟨(_, k), List.mk_mem_zipIdx_iff_getElem?.2 hb, rfl⟩)
    · rintro h st hst
      obtain ⟨⟨b, k⟩, hk, rfl⟩ := List.mem_map.1 hst
      exact h k (List.getElem?_eq_some_iff.1 (List.mk_mem_zipIdx_iff_getElem?.1 hk)).1
  rw [hstores]
  constructor
  · intro h hne
    have hpos : 0 < ws.length := List.length_pos_iff.2 hne
    -- The bytes reach the end of the address space only if they pass its last address.
    rcases Nat.lt_or_ge (pointers - 1) (frames + 4 * ws.length) with hwrap | hfit
    · have hlast := h (pointers - 1 - frames) (by omega)
      rw [Nat.add_sub_cancel' (by omega), Nat.mod_eq_of_lt (by decide)] at hlast
      omega
    · have hlast := h (4 * ws.length - 1) (by omega)
      rw [Nat.mod_eq_of_lt (by omega)] at hlast
      omega
  · intro h k hk
    have hle := h (fun h0 => by simp [h0] at hk)
    rw [Nat.mod_eq_of_lt (by omega)]
    omega

/-- **The system call** stays inside the caller exactly if the range that the caller passes does,
where the call stores at all. -/
theorem contained_iff (c : Caller) (s : Kmem) (hsz : c.sz < pointers) :
    Contained c s ↔ ∀ frames numframes, argint c 0 = some frames → argint c 1 = some numframes →
      0 < toInt numframes → toInt numframes ≤ s.allocSize →
        frames + 4 * (toInt numframes).toNat ≤ c.sz := by
  cases h0 : argint c 0 with
  | none => exact iff_of_true (.inl (by simp [sysDumpAllocated, h0])) nofun
  | some frames =>
    cases h1 : argint c 1 with
    | none => exact iff_of_true (.inl (by simp [sysDumpAllocated, h0, h1])) nofun
    | some numframes =>
      have hf : frames < pointers := by
        rw [argint, fetchint] at h0
        split at h0
        · cases h0
        · obtain rfl := Option.some.inj h0
          exact Bytes.word_lt _ 4 _
      have hargs : (∀ f n, some frames = some f → some numframes = some n → 0 < toInt n →
          toInt n ≤ s.allocSize → f + 4 * (toInt n).toNat ≤ c.sz) ↔ (0 < toInt numframes →
            toInt numframes ≤ s.allocSize → frames + 4 * (toInt numframes).toNat ≤ c.sz) := by
        constructor
        · intro h
          exact h _ _ rfl rfl
        · rintro h _ _ ⟨⟩ ⟨⟩
          exact h
      rw [hargs, Contained, sysDumpAllocated_eq h0 h1]
      by_cases hbad : toInt numframes < 0 ∨ s.allocSize < toInt numframes
      · rw [dumpAllocated, if_pos hbad]
        exact iff_of_true (.inl ⟨rfl, rfl⟩) (by omega)
      rw [dumpAllocated_eq hbad, storesAt_inside hf hsz]
      have hlen : (s.allocated.reverse.take (toInt numframes).toNat).length =
          (toInt numframes).toNat := by
        rw [List.length_take, List.length_reverse, allocated_length]
        omega
      have hne : s.allocated.reverse.take (toInt numframes).toNat ≠ [] ↔ 0 < toInt numframes := by
        rw [← List.length_pos_iff, hlen]
        omega
      rw [hlen, hne]
      have hfail : ¬((0 : ℤ) = -1 ∧ storesAt frames
          (s.allocated.reverse.take (toInt numframes).toNat) = []) := fun h => by simp at h
      rw [or_iff_right hfail]
      exact ⟨fun h hpos _ => h hpos, fun h hpos => h hpos (by omega)⟩

/-- A caller of two pages with the two arguments on its stack. -/
def caller (frames numframes : ℕ) : Caller where
  sz := 2 * pgsize
  esp := 0x1000
  mem := .ofChunks [(0x1004, [frames, numframes].flatMap (Bytes.leBytes 4))]

/-- One allocated frame. -/
def oneAllocated : Kmem :=
  { Kmem.boot (fun _ => 0) with allocList := fun _ => 0xFFE000, allocSize := 1 }

/-- A pointer into the caller. -/
theorem contained_caller : Contained (caller 0 1) oneAllocated := by
  refine (contained_iff _ _ (by decide)).2 fun frames numframes h0 h1 _ _ => ?_
  obtain rfl : 0 = frames := Option.some.inj h0
  obtain rfl : 1 = numframes := Option.some.inj h1
  decide

/-- With a pointer into the kernel, the call overwrites the kernel. -/
theorem not_contained : ¬∀ (c : Caller) (s : Kmem), c.sz < pointers → Contained c s := by
  intro h
  rcases h (caller 0x100000 1) oneAllocated (by decide) with ⟨hret, -⟩ | hstores
  · exact absurd hret (by decide)
  · exact absurd hstores (by decide)

end OsProjects.Alloc
