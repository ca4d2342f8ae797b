import OsProjects.Vm.User

/-!
# Write protection

After a successful `mprotect`, the protected pages keep their bytes as long as no store of the
kernel meets them: user stores fault, but the kernel does not look at `PTE_W`, and `argptr` only
compares the address with the size (`protected_run`).

The invariant is `Valid`: mapped pages lie below the size and have different frames, so that a
store into one page leaves the others alone.
-/

namespace OsProjects.Vm.User

open Alloc (pgsize pointers)
open Bytes (leBytes)

/-- The stores stay out of the kernel's memory. -/
def SparesKernel (m : Memory) (e : Event) : Prop := ∀ s ∈ output m e, s.1 < extmem

/-- The stores of the kernel do not meet the page either. -/
def Spares (q : ℕ) (m : Memory) (e : Event) : Prop :=
  SparesKernel m e ∧ ∀ s ∈ output m e, page s.1 ≠ q

/-- The step is no `munprotect` that covers the page, and the page stays mapped. -/
def Keeps (q : ℕ) (m : Memory) (e : Event) (m' : Memory) : Prop :=
  match e with
  | .munprotect addr len => (sysMunprotect addr len m).1 = 0 → q ∉ region addr len
  | .exec _ => False
  | _ => Present (m'.pte q)

/-- Mapped pages have different frames. -/
def Distinct (m : Memory) : Prop :=
  ∀ q q', Present (m.pte q) → Present (m.pte q') → pteAddr (m.pte q) = pteAddr (m.pte q') → q = q'

/-- The invariant of a process's memory. -/
structure Valid (m : Memory) : Prop where
  sz_le : m.sz ≤ usertop
  below : ∀ q, Present (m.pte q) → q * pgsize < m.sz
  distinct : Distinct m

theorem Image.valid {m : Memory} (h : Image m) : Valid m :=
  ⟨h.sz_le, fun q => (h.present q).1, h.distinct⟩

/-- The page is mapped, and not writable. -/
def Protected (q : ℕ) (m : Memory) : Prop := Present (m.pte q) ∧ ¬Writable (m.pte q)

/-- The page is mapped as before, and has its bytes. -/
def Same (q : ℕ) (m m' : Memory) : Prop :=
  m'.pte q = m.pte q ∧ ∀ off < pgsize, m'.content q off = m.content q off

/-! ### Entries -/

section Entries

variable {m m' : Memory} {pte q va off : ℕ}

theorem writable_iff : Writable pte ↔ pte.testBit 1 = true := by
  rw [Writable, show pteW = 2 ^ 1 from rfl, Nat.and_two_pow]
  cases pte.testBit 1 <;> simp

theorem testBit_pteW {i : ℕ} (hi : i ≠ 1) : pteW.testBit i = false := by
  rw [show pteW = 2 ^ 1 from rfl, Nat.testBit_two_pow_of_ne hi.symm]

/-- What `mprotect` and `munprotect` do to an entry changes its bit `PTE_W` only. -/
theorem clear_spec (pte : ℕ) : (Present (pte ^^^ (pte &&& pteW)) ↔ Present pte) ∧
    pteAddr (pte ^^^ (pte &&& pteW)) = pteAddr pte ∧ ¬Writable (pte ^^^ (pte &&& pteW)) := by
  have hbit : ∀ i, i ≠ 1 → (pte ^^^ (pte &&& pteW)).testBit i = pte.testBit i := by
    intro i hi
    rw [Nat.testBit_xor, Nat.testBit_and, testBit_pteW hi, Bool.and_false, Bool.xor_false]
  refine ⟨?_, pteAddr_congr fun i hi => hbit i (by omega), ?_⟩
  · rw [present_iff, present_iff, hbit 0 (by decide)]
  · rw [writable_iff, Nat.testBit_xor, Nat.testBit_and]
    cases pte.testBit 1 <;> decide

theorem set_spec (pte : ℕ) :
    (Present (pte ||| pteW) ↔ Present pte) ∧ pteAddr (pte ||| pteW) = pteAddr pte := by
  have hbit : ∀ i, i ≠ 1 → (pte ||| pteW).testBit i = pte.testBit i := by
    intro i hi
    rw [Nat.testBit_or, testBit_pteW hi, Bool.or_false]
  refine ⟨?_, pteAddr_congr fun i hi => hbit i (by omega)⟩
  rw [present_iff, present_iff, hbit 0 (by decide)]

theorem pteAddr_mod (pte : ℕ) : pteAddr pte % pgsize = 0 := Nat.mul_mod_left _ _

/-- The bytes of different frames. -/
theorem frame_ne {v v' off' : ℕ} (hv : v % pgsize = 0) (hv' : v' % pgsize = 0) (hne : v ≠ v')
    (hoff : off < pgsize) (hoff' : off' < pgsize) : v + off ≠ v' + off' := by
  unfold pgsize at *
  omega

/-- A store into another page. -/
theorem content_setByte (hd : Distinct m) (hq : Present (m.pte q)) (hva : Present (m.pte (page va)))
    (hne : page va ≠ q) (hoff : off < pgsize) (b : UInt8) :
    (m.setByte (m.phys va) b).content q off = m.content q off := by
  have hmod : va % pgsize < pgsize := Nat.mod_lt _ (by decide)
  have hframe : pteAddr (m.pte q) ≠ pteAddr (m.pte (page va)) := fun h =>
    hne (hd _ _ hva hq h.symm)
  have haddr : pteAddr (m.pte q) + off ≠ m.phys va :=
    frame_ne (pteAddr_mod (m.pte q)) (pteAddr_mod (m.pte (page va))) hframe hoff hmod
  rw [Memory.content, Memory.content, Memory.setByte_pte, Memory.setByte_byte,
    Function.update_of_ne haddr]

/-- Filling another frame. -/
theorem content_fill {v : ℕ} (hv : v % pgsize = 0) (hne : pteAddr (m.pte q) ≠ v)
    (hoff : off < pgsize) (b : UInt8) : (m.fill v b).content q off = m.content q off := by
  have hmod := pteAddr_mod (m.pte q)
  rw [Memory.content, Memory.content, Memory.fill_pte]
  refine if_neg fun h => hne ?_
  unfold pgsize at *
  omega

end Entries

/-! ### mprotect and munprotect -/

section Protect

variable {m : Memory} {f : ℕ → ℕ} {addr : ℕ} {len : ℤ} {qs : List ℕ}

theorem foldl_setPte (hnd : qs.Nodup) (q : ℕ) :
    (qs.foldl (fun m q => m.setPte q (f (m.pte q))) m).pte q =
      if q ∈ qs then f (m.pte q) else m.pte q := by
  induction qs generalizing m with
  | nil => rfl
  | cons p qs ih =>
    obtain ⟨hp, hnd⟩ := List.nodup_cons.1 hnd
    rw [List.foldl_cons, ih hnd]
    show (if q ∈ qs then f (Function.update m.pte p (f (m.pte p)) q)
      else Function.update m.pte p (f (m.pte p)) q) = _
    by_cases hq : q = p
    · subst hq
      simp [hp]
    · simp [hq]

theorem foldl_setPte_rest : ∀ m : Memory,
    (qs.foldl (fun m q => m.setPte q (f (m.pte q))) m).sz = m.sz ∧
      (qs.foldl (fun m q => m.setPte q (f (m.pte q))) m).byte = m.byte := by
  induction qs with
  | nil => exact fun m => ⟨rfl, rfl⟩
  | cons p qs ih => exact fun m => ih _

/-- An entry after the loop. -/
theorem protectLoop_pte (f : ℕ → ℕ) (addr : ℕ) (len : ℤ) (m : Memory) (q : ℕ) :
    (protectLoop f addr len m).2.pte q =
      if (protectLoop f addr len m).1 = 0 ∧ q ∈ region addr len then f (m.pte q)
      else m.pte q := by
  rw [protectLoop]
  split
  · rfl
  · have hnd : (region addr len).Nodup := List.nodup_range'
    simp [foldl_setPte hnd]

theorem protectLoop_rest (f : ℕ → ℕ) (addr : ℕ) (len : ℤ) (m : Memory) :
    (protectLoop f addr len m).2.sz = m.sz ∧ (protectLoop f addr len m).2.byte = m.byte := by
  rw [protectLoop]
  split
  · exact ⟨rfl, rfl⟩
  · exact foldl_setPte_rest m

end Protect

/-! ### growproc -/

section Grow

variable {m m' : Memory} {as frames : List ℕ} {q : ℕ}

theorem Same.refl (q : ℕ) (m : Memory) : Same q m m := ⟨rfl, fun _ _ => rfl⟩

theorem Same.trans {m₁ : Memory} (h₁ : Same q m m₁) (h₂ : Same q m₁ m') : Same q m m' :=
  ⟨h₂.1.trans h₁.1, fun off hoff => (h₂.2 off hoff).trans (h₁.2 off hoff)⟩

/-- The pages that one call goes through, by number. -/
theorem mem_pagesBetween {first last : ℕ} (hfirst : first ≤ usertop) :
    q ∈ (pagesBetween first last).map page ↔ first ≤ q * pgsize ∧ q * pgsize < last := by
  have hround : Alloc.pgroundup first = (first + 4095) / 4096 * 4096 := by
    unfold Alloc.pgroundup usertop pgsize pointers at *
    omega
  simp only [pagesBetween, List.map_map, List.mem_map, List.mem_range, Function.comp_apply, hround]
  unfold page pgsize
  constructor
  · rintro ⟨i, hi, rfl⟩
    omega
  · rintro ⟨h₁, h₂⟩
    exact ⟨q - (first + 4095) / 4096, by omega, by omega⟩

/-- `deallocuvm` unmaps its pages and leaves the others alone. -/
theorem deallocLoop_spec (hd : Distinct m) (h : deallocLoop as m = some m') :
    m'.sz = m.sz ∧ Distinct m' ∧ (∀ q, Present (m'.pte q) → q ∉ as.map page) ∧
      (∀ q, q ∉ as.map page → m'.pte q = m.pte q) ∧
      ∀ q, Present (m.pte q) → q ∉ as.map page → Same q m m' := by
  induction as generalizing m with
  | nil =>
    obtain rfl := Option.some.inj h
    exact ⟨rfl, hd, by simp, fun _ _ => rfl, fun q _ _ => .refl q m⟩
  | cons a as ih =>
    rw [deallocLoop] at h
    by_cases hpresent : Present (m.pte (page a))
    · rw [if_pos hpresent] at h
      split at h
      · cases h
      have hd₁ : Distinct ((m.fill (pteAddr (m.pte (page a))) 1).setPte (page a) 0) := by
        have hold : ∀ q, Present (Function.update m.pte (page a) 0 q) →
            Function.update m.pte (page a) 0 q = m.pte q := by
          intro q hq
          refine Function.update_of_ne ?_ _ _
          rintro rfl
          rw [Function.update_self] at hq
          exact not_present_zero hq
        intro q q' hq hq' heq
        rw [Memory.setPte_pte, Memory.fill_pte] at hq hq' heq
        rw [hold q hq, hold q' hq'] at heq
        rw [hold q hq] at hq
        rw [hold q' hq'] at hq'
        exact hd q q' hq hq' heq
      obtain ⟨hsz, hd', hgone, hkept, hsame⟩ := ih hd₁ h
      refine ⟨hsz, hd', fun q hq => ?_, fun q hq => ?_, fun q hq hnot => ?_⟩
      · rw [List.map_cons, List.mem_cons, not_or]
        refine ⟨?_, hgone q hq⟩
        rintro rfl
        rw [hkept _ (hgone _ hq), Memory.setPte_pte, Function.update_self] at hq
        exact not_present_zero hq
      · rw [List.map_cons, List.mem_cons, not_or] at hq
        rw [hkept q hq.2, Memory.setPte_pte, Function.update_of_ne hq.1, Memory.fill_pte]
      · rw [List.map_cons, List.mem_cons, not_or] at hnot
        have hpte : ((m.fill (pteAddr (m.pte (page a))) 1).setPte (page a) 0).pte q = m.pte q := by
          rw [Memory.setPte_pte, Function.update_of_ne hnot.1, Memory.fill_pte]
        refine Same.trans ⟨hpte, fun off hoff => ?_⟩ (hsame q (hpte.symm ▸ hq) hnot.2)
        have hne : pteAddr (m.pte q) ≠ pteAddr (m.pte (page a)) := fun h =>
          hnot.1 (hd q (page a) hq hpresent h)
        rw [Memory.content, hpte, Memory.setPte_byte]
        exact content_fill (pteAddr_mod _) hne hoff 1
    · rw [if_neg hpresent] at h
      obtain ⟨hsz, hd', hgone, hkept, hsame⟩ := ih hd h
      refine ⟨hsz, hd', fun q hq => ?_, fun q hq => ?_, fun q hq hnot => ?_⟩
      · rw [List.map_cons, List.mem_cons, not_or]
        refine ⟨?_, hgone q hq⟩
        rintro rfl
        rw [hkept _ (hgone _ hq)] at hq
        exact hpresent hq
      · rw [List.map_cons, List.mem_cons, not_or] at hq
        exact hkept q hq.2
      · rw [List.map_cons, List.mem_cons, not_or] at hnot
        exact hsame q hq hnot.2

/-- `allocuvm` maps pages that were not mapped. -/
theorem allocLoop_spec {ok : Bool} (hd : Distinct m) (hf : Fresh frames m)
    (h : allocLoop as frames m = some (ok, m')) :
    m'.sz = m.sz ∧ Distinct m' ∧ (∀ q, q ∉ as.map page → m'.pte q = m.pte q) ∧
      ∀ q, Present (m.pte q) → Same q m m' := by
  induction as generalizing m frames with
  | nil =>
    obtain ⟨-, rfl⟩ := Prod.mk.inj (Option.some.inj h)
    exact ⟨rfl, hd, fun _ _ => rfl, fun q _ => .refl q m⟩
  | cons a as ih =>
    cases frames with
    | nil =>
      obtain ⟨-, rfl⟩ := Prod.mk.inj (Option.some.inj h)
      exact ⟨rfl, hd, fun _ _ => rfl, fun q _ => .refl q m⟩
    | cons mem frames =>
      rw [allocLoop] at h
      split at h
      · cases h
      rename_i hpresent
      obtain ⟨hal, hnd, hun⟩ := hf
      rw [List.forall_mem_cons] at hal hun
      obtain ⟨hmem, hnd⟩ := List.nodup_cons.1 hnd
      have haddr : pteAddr (mem ||| (pteW ||| pteU) ||| pteP) = mem := by
        rw [Nat.or_assoc]
        exact pteAddr_or hal.1 (by decide)
      have hold : ∀ q, q ≠ page a → ((m.fill mem 0).setPte (page a)
          (mem ||| (pteW ||| pteU) ||| pteP)).pte q = m.pte q := by
        intro q hq
        rw [Memory.setPte_pte, Function.update_of_ne hq, Memory.fill_pte]
      have hnew : ((m.fill mem 0).setPte (page a) (mem ||| (pteW ||| pteU) ||| pteP)).pte (page a) =
          mem ||| (pteW ||| pteU) ||| pteP := by
        rw [Memory.setPte_pte, Function.update_self]
      generalize hm₁ : (m.fill mem 0).setPte (page a) (mem ||| (pteW ||| pteU) ||| pteP) = m₁
        at h hold hnew
      have hd₁ : Distinct m₁ := by
        intro q q' hq hq' heq
        by_cases hqa : q = page a <;> by_cases hqa' : q' = page a
        · rw [hqa, hqa']
        · rw [hqa, hnew, hold q' hqa', haddr] at heq
          rw [hold q' hqa'] at hq'
          exact absurd heq.symm (hun.1 q' hq')
        · rw [hqa', hnew, hold q hqa, haddr] at heq
          rw [hold q hqa] at hq
          exact absurd heq (hun.1 q hq)
        · rw [hold q hqa] at hq heq
          rw [hold q' hqa'] at hq' heq
          exact hd q q' hq hq' heq
      have hf₁ : Fresh frames m₁ := by
        refine ⟨hal.2, hnd, fun v hv q hq => ?_⟩
        by_cases hqa : q = page a
        · rw [hqa, hnew, haddr]
          rintro rfl
          exact hmem hv
        · rw [hold q hqa] at hq ⊢
          exact hun.2 v hv q hq
      obtain ⟨hsz, hd', hkept, hsame⟩ := ih hd₁ hf₁ h
      refine ⟨hsz.trans (hm₁ ▸ rfl), hd', fun q hq => ?_, fun q hq => ?_⟩
      · rw [List.map_cons, List.mem_cons, not_or] at hq
        rw [hkept q hq.2, hold q hq.1]
      · have hqa : q ≠ page a := by
          rintro rfl
          exact hpresent hq
        have hpte := hold q hqa
        refine Same.trans ⟨hpte, fun off hoff => ?_⟩ (hsame q (hpte.symm ▸ hq))
        rw [Memory.content, hpte, ← hm₁, Memory.setPte_byte]
        exact content_fill hal.1 (hun.1 q hq) hoff 0

/-- What `allocuvm` and `deallocuvm` leave, when they return the size `sz`. -/
structure Resized (m : Memory) (sz : ℕ) (m' : Memory) : Prop where
  le : sz ≤ usertop
  sz_eq : m'.sz = m.sz
  distinct : Distinct m'
  below : ∀ q, Present (m'.pte q) → q * pgsize < if sz = 0 then m.sz else sz
  same : ∀ q, Present (m.pte q) → Present (m'.pte q) → Same q m m'

theorem deallocuvm_spec {newsz sz : ℕ} (hv : Valid m)
    (h : deallocuvm m.sz newsz m = some (sz, m')) : Resized m sz m' := by
  have hle := hv.sz_le
  rw [deallocuvm] at h
  split at h
  · obtain ⟨rfl, rfl⟩ := Prod.mk.inj (Option.some.inj h)
    refine ⟨hle, rfl, hv.distinct, fun q hq => ?_, fun q _ _ => .refl q m⟩
    rw [ite_self]
    exact hv.below q hq
  · obtain ⟨m₁, hm₁, heq⟩ := Option.map_eq_some_iff.1 h
    obtain ⟨rfl, rfl⟩ := Prod.mk.inj heq
    obtain ⟨hsz, hd, hgone, hkept, hsame⟩ := deallocLoop_spec hv.distinct hm₁
    refine ⟨by omega, hsz, hd, fun q hq => ?_, fun q hq hq' => hsame q hq (hgone q hq')⟩
    have hnot := hgone q hq
    rw [mem_pagesBetween (by omega)] at hnot
    rw [hkept q (hgone q hq)] at hq
    have hbelow := hv.below q hq
    split <;> omega

theorem allocuvm_spec {newsz sz : ℕ} (hv : Valid m) (hf : Fresh frames m)
    (h : allocuvm m.sz newsz frames m = some (sz, m')) : Resized m sz m' := by
  have hle := hv.sz_le
  rw [allocuvm] at h
  split at h
  · obtain ⟨rfl, rfl⟩ := Prod.mk.inj (Option.some.inj h)
    exact ⟨Nat.zero_le _, rfl, hv.distinct, hv.below, fun q _ _ => .refl q m⟩
  split at h
  · obtain ⟨rfl, rfl⟩ := Prod.mk.inj (Option.some.inj h)
    refine ⟨hle, rfl, hv.distinct, fun q hq => ?_, fun q _ _ => .refl q m⟩
    rw [ite_self]
    exact hv.below q hq
  obtain ⟨⟨ok, m₁⟩, hm₁, h⟩ := Option.bind_eq_some_iff.1 h
  obtain ⟨hsz, hd, hkept, hsame⟩ := allocLoop_spec hv.distinct hf hm₁
  have hbelow : ∀ q, Present (m₁.pte q) → q * pgsize < m.sz ∨
      q ∈ (pagesBetween m.sz newsz).map page := by
    intro q hq
    by_cases hmem : q ∈ (pagesBetween m.sz newsz).map page
    · exact .inr hmem
    · rw [hkept q hmem] at hq
      exact .inl (hv.below q hq)
  cases ok with
  | true =>
    obtain ⟨rfl, rfl⟩ := Prod.mk.inj (Option.some.inj h)
    refine ⟨by omega, hsz, hd, fun q hq => ?_, fun q hq _ => hsame q hq⟩
    have hq' := hbelow q hq
    rw [mem_pagesBetween hle] at hq'
    split <;> omega
  | false =>
    obtain ⟨⟨sz', m₂⟩, hm₂, h⟩ := Option.bind_eq_some_iff.1 h
    obtain ⟨rfl, rfl⟩ := Prod.mk.inj (Option.some.inj h)
    rw [deallocuvm] at hm₂
    split at hm₂
    · obtain ⟨-, rfl⟩ := Prod.mk.inj (Option.some.inj hm₂)
      refine ⟨Nat.zero_le _, hsz, hd, fun q hq => ?_, fun q hq _ => hsame q hq⟩
      have hq' := hbelow q hq
      rw [mem_pagesBetween hle] at hq'
      rw [if_pos rfl]
      omega
    · -- The pages mapped so far are unmapped again.
      obtain ⟨m₃, hm₃, heq⟩ := Option.map_eq_some_iff.1 hm₂
      obtain ⟨-, rfl⟩ := Prod.mk.inj heq
      obtain ⟨hsz', hd', hgone, hkept', hsame'⟩ := deallocLoop_spec hd hm₃
      refine ⟨Nat.zero_le _, hsz'.trans hsz, hd', fun q hq => ?_, fun q hq hq' => ?_⟩
      · have hnot := hgone q hq
        rw [hkept' q hnot] at hq
        rw [if_pos rfl]
        exact (hbelow q hq).resolve_right hnot
      · have hq₁ : Present (m₁.pte q) := (hsame q hq).1.symm ▸ hq
        exact (hsame q hq).trans (hsame' q hq₁ (hgone q hq'))

/-- **growproc** keeps the invariant and the pages it does not unmap. -/
theorem growproc_spec {n r : ℤ} (hv : Valid m) (hf : Fresh frames m)
    (h : growproc n frames m = some (r, m')) :
    Valid m' ∧ ∀ q, Present (m.pte q) → Present (m'.pte q) → Same q m m' := by
  rw [growproc] at h
  generalize ((m.sz + n) % (pointers : ℤ)).toNat = newsz at h
  split at h
  · obtain ⟨-, rfl⟩ := Prod.mk.inj (Option.some.inj h)
    exact ⟨hv, fun q _ _ => .refl q m⟩
  obtain ⟨⟨sz, m₁⟩, hm₁, hr⟩ := Option.map_eq_some_iff.1 h
  have hres : Resized m sz m₁ := by
    split at hm₁
    · exact allocuvm_spec hv hf hm₁
    · exact deallocuvm_spec hv hm₁
  obtain ⟨hle, hsz, hd, hbelow, hsame⟩ := hres
  dsimp only at hr
  by_cases h0 : sz = 0
  · rw [if_pos h0] at hr
    obtain ⟨-, rfl⟩ := Prod.mk.inj hr
    refine ⟨⟨hsz ▸ hv.sz_le, fun q hq => ?_, hd⟩, hsame⟩
    have hq' := hbelow q hq
    rwa [if_pos h0, ← hsz] at hq'
  · rw [if_neg h0] at hr
    obtain ⟨-, rfl⟩ := Prod.mk.inj hr
    refine ⟨⟨hle, fun q hq => ?_, hd⟩, hsame⟩
    have hq' := hbelow q hq
    rwa [if_neg h0] at hq'

end Grow

/-! ### Steps -/

section Steps

variable {m m' m₀ : Memory} {e : Event} {q : ℕ}

/-- Stores of the kernel into user memory and the I/O space. -/
theorem kernelStores_spec {ss : List (ℕ × UInt8)} (hs : ∀ s ∈ ss, s.1 < extmem)
    (h : KernelStores ss m m') : m'.pte = m.pte ∧ m'.sz = m.sz ∧ (Distinct m →
      ∀ q, Present (m.pte q) → (∀ s ∈ ss, page s.1 ≠ q) → ∀ off < pgsize,
        m'.content q off = m.content q off) := by
  induction ss generalizing m with
  | nil =>
    obtain rfl := h
    exact ⟨rfl, rfl, fun _ _ _ _ _ _ => rfl⟩
  | cons s ss ih =>
    obtain ⟨m₁, hm₁, h⟩ := h
    rw [List.forall_mem_cons] at hs
    obtain ⟨hpte, hsz, hcontent⟩ := ih hs.2 h
    have hfirst : m₁.pte = m.pte ∧ m₁.sz = m.sz ∧ (Distinct m → ∀ q, Present (m.pte q) →
        page s.1 ≠ q → ∀ off < pgsize, m₁.content q off = m.content q off) := by
      rw [KernelStore] at hm₁
      split at hm₁
      · obtain ⟨hva, rfl⟩ := hm₁
        exact ⟨rfl, rfl, fun hd q hq hne off hoff => content_setByte hd hq hva hne hoff _⟩
      · rw [if_pos hs.1] at hm₁
        subst hm₁
        exact ⟨rfl, rfl, fun _ _ _ _ _ _ => rfl⟩
    obtain ⟨hpte₁, hsz₁, hcontent₁⟩ := hfirst
    refine ⟨hpte.trans hpte₁, hsz.trans hsz₁, fun hd q hq hne off hoff => ?_⟩
    rw [List.forall_mem_cons] at hne
    have hd₁ : Distinct m₁ := by
      unfold Distinct
      rw [hpte₁]
      exact hd
    rw [hcontent hd₁ q (hpte₁ ▸ hq) hne.2 off hoff, hcontent₁ hd q hq hne.1 off hoff]

/-- Changing `PTE_W` keeps the invariant and the bytes. -/
theorem protectLoop_spec {f : ℕ → ℕ}
    (hf : ∀ pte, (Present (f pte) ↔ Present pte) ∧ pteAddr (f pte) = pteAddr pte) (hv : Valid m)
    (addr : ℕ) (len : ℤ) :
    Valid (protectLoop f addr len m).2 ∧
      (∀ q, Present ((protectLoop f addr len m).2.pte q) ↔ Present (m.pte q)) ∧
      ∀ q off, (protectLoop f addr len m).2.content q off = m.content q off := by
  obtain ⟨hsz, hbyte⟩ := protectLoop_rest f addr len m
  have hpresent : ∀ q, Present ((protectLoop f addr len m).2.pte q) ↔ Present (m.pte q) := by
    intro q
    rw [protectLoop_pte]
    split
    · exact (hf _).1
    · rfl
  have haddr : ∀ q, pteAddr ((protectLoop f addr len m).2.pte q) = pteAddr (m.pte q) := by
    intro q
    rw [protectLoop_pte]
    split
    · exact (hf _).2
    · rfl
  refine ⟨⟨hsz ▸ hv.sz_le, fun q hq => ?_, fun q q' hq hq' heq => ?_⟩, hpresent, fun q off => ?_⟩
  · rw [hsz]
    exact hv.below q ((hpresent q).1 hq)
  · rw [haddr, haddr] at heq
    exact hv.distinct q q' ((hpresent q).1 hq) ((hpresent q').1 hq') heq
  · rw [Memory.content, Memory.content, haddr, hbyte]

/-- A system call that stores through a pointer. -/
theorem output_spec (hv : Valid m) (hk : SparesKernel m e) (h : KernelStores (output m e) m m') :
    Valid m' ∧ (Protected q m → (∀ s ∈ output m e, page s.1 ≠ q) →
      Protected q m' ∧ ∀ off < pgsize, m'.content q off = m.content q off) := by
  obtain ⟨hpte, hsz, hcontent⟩ := kernelStores_spec hk h
  refine ⟨⟨hsz ▸ hv.sz_le, ?_, ?_⟩, fun hp hne => ⟨?_, hcontent hv.distinct q hp.1 hne⟩⟩
  · rw [hpte, hsz]
    exact hv.below
  · unfold Distinct
    rw [hpte]
    exact hv.distinct
  · rw [Protected, hpte]
    exact hp

/-- **One step** keeps the invariant, and a protected page that it keeps and spares. -/
theorem step_spec (hv : Valid m) (hs : Step m e m') (hk : SparesKernel m e) :
    Valid m' ∧ (Protected q m → Keeps q m e m' → (∀ s ∈ output m e, page s.1 ≠ q) →
      Protected q m' ∧ ∀ off < pgsize, m'.content q off = m.content q off) := by
  cases e with
  | store va b =>
    change userStore va b m = some m' at hs
    rw [userStore] at hs
    split at hs
    · rename_i hcond
      obtain rfl := Option.some.inj hs
      obtain ⟨-, hpresent, -, hwritable⟩ := hcond
      refine ⟨⟨hv.sz_le, hv.below, hv.distinct⟩, fun hp _ _ => ⟨hp, fun off hoff => ?_⟩⟩
      -- The page of the store is writable, and so it is not the protected one.
      have hne : page va ≠ q := by
        rintro rfl
        exact hp.2 hwritable
      exact content_setByte hv.distinct hp.1 hpresent hne hoff b
    · cases hs
  | mprotect addr len =>
    change m' = (sysMprotect addr len m).2 at hs
    subst hs
    rw [sysMprotect]
    split
    · obtain ⟨hv', hpresent, hcontent⟩ := protectLoop_spec
        (fun pte => ⟨(clear_spec pte).1, (clear_spec pte).2.1⟩) hv addr len
      refine ⟨hv', fun hp _ _ => ⟨⟨(hpresent q).2 hp.1, ?_⟩, fun off _ => hcontent q off⟩⟩
      rw [mprotect, protectLoop_pte]
      split
      · exact (clear_spec _).2.2
      · exact hp.2
    · exact ⟨hv, fun hp _ _ => ⟨hp, fun _ _ => rfl⟩⟩
  | munprotect addr len =>
    change m' = (sysMunprotect addr len m).2 at hs
    subst hs
    by_cases harg : argptr addr 1 m
    · have hsys : sysMunprotect addr len m = munprotect addr len m := if_pos harg
      obtain ⟨hv', hpresent, hcontent⟩ := protectLoop_spec set_spec hv addr len
      rw [hsys]
      refine ⟨hv', fun hp hkeep _ => ⟨⟨(hpresent q).2 hp.1, ?_⟩, fun off _ => hcontent q off⟩⟩
      change (sysMunprotect addr len m).1 = 0 → q ∉ region addr len at hkeep
      rw [hsys] at hkeep
      rw [munprotect, protectLoop_pte, if_neg fun h => hkeep h.1 h.2]
      exact hp.2
    · have hsys : sysMunprotect addr len m = (-1, m) := if_neg harg
      rw [hsys]
      exact ⟨hv, fun hp _ _ => ⟨hp, fun _ _ => rfl⟩⟩
  | sbrk n frames =>
    obtain ⟨hf, r, hr⟩ := hs
    obtain ⟨hv', hsame⟩ := growproc_spec hv hf hr
    refine ⟨hv', fun hp hkeep _ => ?_⟩
    obtain ⟨hpte, hcontent⟩ := hsame q hp.1 hkeep
    refine ⟨?_, hcontent⟩
    rw [Protected, hpte]
    exact hp
  | read p n src => exact (output_spec hv hk hs).imp_right fun h hp _ => h hp
  | fstat p st => exact (output_spec hv hk hs).imp_right fun h hp _ => h hp
  | pipe p fd => exact (output_spec hv hk hs).imp_right fun h hp _ => h hp
  | dumpAllocated frames numframes allocList =>
    exact (output_spec hv hk hs).imp_right fun h hp _ => h hp
  | exec image =>
    obtain ⟨himage, rfl⟩ := hs
    exact ⟨himage.valid, fun _ hkeep _ => hkeep.elim⟩
  | others byte =>
    obtain ⟨rfl, hbytes⟩ := hs
    exact ⟨⟨hv.sz_le, hv.below, hv.distinct⟩, fun hp _ _ => ⟨hp, hbytes q hp.1⟩⟩

end Steps

/-! ### Runs -/

section Runs

variable {m m' m₀ : Memory} {es : List Event} {q : ℕ}

/-- Every process's memory is valid, unless the kernel has stored into its own memory for it. -/
theorem valid_reachable
    (h : Reachable Image (fun m e m' => Step m e m' ∧ SparesKernel m e) m) : Valid m :=
  h.invariant (fun _ => Image.valid) fun _ _ _ hv hs => (step_spec (q := 0) hv hs.1 hs.2).1

/-- The pages of a region that does not wrap around. -/
theorem mem_region {addr : ℕ} {len : ℤ} (hlen : addr + len * pgsize < pointers)
    (haddr : addr % pgsize = 0) (hpos : 0 < len) :
    q ∈ region addr len ↔ page addr ≤ q ∧ q < page addr + len := by
  have hend : (regionEnd addr len : ℤ) = addr + len * pgsize := by
    rw [regionEnd, Int.emod_eq_of_lt (by unfold pgsize; omega) hlen, Int.toNat_of_nonneg]
    unfold pgsize
    omega
  rw [region, List.mem_range'_1]
  unfold page pgsize at *
  omega

/-- A successful `mprotect` protects its pages. -/
theorem protected_of_mprotect {addr : ℕ} {len : ℤ} (hlen : len * pgsize < 2 ^ 31)
    (hsz : m₀.sz ≤ usertop) (h : sysMprotect addr len m₀ = (0, m))
    (hq : page addr ≤ q ∧ q < page addr + len) (hpresent : Present (m₀.pte q)) :
    Protected q m := by
  rw [sysMprotect] at h
  split at h
  swap
  · simp at h
  rename_i harg
  have hcond : ¬(addr % pgsize ≠ 0 ∨ usertop < regionEnd addr len ∨ len ≤ 0) := by
    intro hbad
    rw [mprotect, protectLoop, if_pos hbad] at h
    simp at h
  have hmem : q ∈ region addr len := by
    refine (mem_region ?_ (by omega) (by omega)).2 hq
    have := harg.1
    unfold usertop pointers at *
    omega
  have hm : m = (mprotect addr len m₀).2 := by rw [h]
  have hret : (mprotect addr len m₀).1 = 0 := by rw [h]
  rw [Protected, hm, mprotect, protectLoop_pte, if_pos ⟨hret, hmem⟩]
  exact ⟨(clear_spec _).1.2 hpresent, (clear_spec _).2.2⟩

/-- **Write protection.**  After a successful `mprotect`, a page of the region that was mapped keeps
its bytes in every run that does not unmap it or cover it by a `munprotect`, and in which no store
of the kernel meets it. -/
theorem protected_run {addr : ℕ} {len : ℤ}
    (h₀ : Reachable Image (fun m e m' => Step m e m' ∧ SparesKernel m e) m₀)
    (hlen : len * pgsize < 2 ^ 31) (h : sysMprotect addr len m₀ = (0, m))
    (hq : page addr ≤ q ∧ q < page addr + len) (hpresent : Present (m₀.pte q))
    (hrun : Run (fun m e m' => Step m e m' ∧ Keeps q m e m' ∧ Spares q m e) m es m') :
    ∀ off < pgsize, m'.content q off = m₀.content q off := by
  have hv₀ := valid_reachable h₀
  have hp := protected_of_mprotect hlen hv₀.sz_le h hq hpresent
  have hstep : Step m₀ (.mprotect addr len) m := by
    show m = (sysMprotect addr len m₀).2
    rw [h]
  have hv := (step_spec (q := q) hv₀ hstep (by simp [SparesKernel, output])).1
  have hfirst : ∀ off < pgsize, m.content q off = m₀.content q off := by
    have harg : argptr addr 1 m₀ := by
      by_contra harg
      simp [sysMprotect, harg] at h
    have hsys : sysMprotect addr len m₀ = mprotect addr len m₀ := if_pos harg
    have hm : m = (mprotect addr len m₀).2 := by rw [← hsys, h]
    intro off _
    rw [hm, mprotect]
    exact (protectLoop_spec (fun pte => ⟨(clear_spec pte).1, (clear_spec pte).2.1⟩) hv₀
      addr len).2.2 q off
  have hall := hrun.invariant (I := fun m' => Valid m' ∧ Protected q m' ∧
      ∀ off < pgsize, m'.content q off = m₀.content q off) ⟨hv, hp, hfirst⟩ ?_
  · exact hall.2.2
  · rintro s e t ⟨hvs, hps, hcs⟩ ⟨hs, hkeep, hspares⟩
    obtain ⟨hvt, hprot⟩ := step_spec (q := q) hvs hs hspares.1
    obtain ⟨hpt, hct⟩ := hprot hps hkeep hspares.2
    exact ⟨hvt, hpt, fun off hoff => (hct off hoff).trans (hcs off hoff)⟩

/-- Two mapped pages, writable in user mode and full of zeros. -/
def twoPages : Memory where
  sz := 2 * pgsize
  pte q := if q = 0 then 0x400000 + 7 else if q = 1 then 0x402000 + 7 else 0
  byte _ := 0

theorem twoPages_present : Present (twoPages.pte q) ↔ q = 0 ∨ q = 1 := by
  unfold twoPages
  dsimp only
  split
  · simp [*, Present, pteP]
  split
  · simp [*, Present, pteP]
  · simp [*, Present]

theorem twoPages_image : Image twoPages where
  sz_le := by decide
  present q := by
    rw [twoPages_present]
    show _ ↔ q * pgsize < 2 * pgsize
    unfold pgsize
    omega
  user q hq := by
    rcases twoPages_present.1 hq with rfl | rfl <;> decide
  distinct q q' hq hq' heq := by
    rcases twoPages_present.1 hq with rfl | rfl <;> rcases twoPages_present.1 hq' with rfl | rfl
    · rfl
    · exact absurd heq (by decide)
    · exact absurd heq (by decide)
    · rfl

theorem reachable_twoPages :
    Reachable Image (fun m e m' => Step m e m' ∧ SparesKernel m e) twoPages :=
  ⟨twoPages, [], twoPages_image, .nil _⟩

/-- Page 0 of the two is protected; a user store and a `read` into page 1 leave it alone. -/
theorem protected_run_two_pages :
    (((sysMprotect 0 1 twoPages).2.setByte 0x402005 3).setByte 0x402000 9).content 0 5 =
      twoPages.content 0 5 := by
  have hregion : page 0 ≤ 0 ∧ ((0 : ℕ) : ℤ) < page 0 + 1 := by decide
  have hrun : Run (fun m e m' => Step m e m' ∧ Keeps 0 m e m' ∧ Spares 0 m e)
      (sysMprotect 0 1 twoPages).2 [.store 0x1005 3, .read 0x1000 1 (.file [9] 0)]
      (((sysMprotect 0 1 twoPages).2.setByte 0x402005 3).setByte 0x402000 9) := by
    refine .cons ⟨rfl, ?_, ?_, ?_⟩ (.cons ⟨⟨_, ⟨?_, rfl⟩, rfl⟩, ?_, ?_, ?_⟩ (.nil _))
    · show Present _
      decide
    · simp [SparesKernel, output]
    · simp [output]
    · decide
    · show Present _
      decide
    · unfold SparesKernel
      decide
    · decide
  exact protected_run reachable_twoPages (by decide) rfl hregion (by decide) hrun 5 (by decide)

/-- A `read` into a protected page changes it. -/
theorem not_protected_run :
    ¬∀ (m₀ m m' : Memory) (addr : ℕ) (len : ℤ) (q : ℕ) (es : List Event),
      Reachable Image (fun m e m' => Step m e m' ∧ SparesKernel m e) m₀ →
      sysMprotect addr len m₀ = (0, m) → page addr ≤ q ∧ q < page addr + len →
      Present (m₀.pte q) → Run (fun m e m' => Step m e m' ∧ Keeps q m e m') m es m' →
      ∀ off < pgsize, m'.content q off = m₀.content q off := by
  intro h
  have hrun : Run (fun m e m' => Step m e m' ∧ Keeps 0 m e m') (sysMprotect 0 1 twoPages).2
      [.read 0 1 (.file [7] 0)] ((sysMprotect 0 1 twoPages).2.setByte 0x400000 7) :=
    .cons ⟨⟨_, ⟨by decide, rfl⟩, rfl⟩, show Present _ by decide⟩ (.nil _)
  have hsame := h twoPages _ _ 0 1 0 _ reachable_twoPages rfl (by decide) (by decide) hrun 0
    (by decide)
  exact absurd hsame (by decide)

end Runs

end OsProjects.Vm.User
