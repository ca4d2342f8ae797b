import OsProjects.Vm.Isolation

/-!
# The calls of a process

`growproc`, `sys_mprotect` and `sys_munprotect` on the page directory of a process, in the memory of
the kernel.  Each is the step that user memory makes (`call_refines`), so that what holds of every
run of user memory holds of the page tables: a page that is write-protected stays so in every run of
calls, whatever the rest of the kernel does, unless it is unmapped or a `munprotect` covers it
(`stays_protected`).
-/

namespace OsProjects.Vm

open Alloc (Fault Kmem Part partA partB pgsize pointers managedFrames Conserved Frames frameMemory)
open User (Writable region regionEnd)
open Space

/-- The size of a process and the memory of the kernel. -/
structure Caller where
  sz : ℕ
  kmem : Kmem

/-- A call, or what the rest of the kernel does. -/
inductive Call
  | sbrk (n : ℤ)
  | mprotect (addr : ℕ) (len : ℤ)
  | munprotect (addr : ℕ) (len : ℤ)
  | others

section Model

variable (P : Part) (end_ d : ℕ)

/-- `growproc` -/
def growproc (n : ℤ) (c : Caller) : Except Fault (ℤ × Caller) :=
  let newsz := ((c.sz + n) % pointers).toNat
  let resized :=
    if 0 < n then allocuvm P.kalloc end_ d c.sz newsz c.kmem
    else do
      let s ← deallocuvm P.kalloc end_ d c.sz newsz c.kmem
      pure (if c.sz ≤ newsz then c.sz else newsz, s)
  if n = 0 then pure (0, c)
  else do
    let (sz, s) ← resized
    pure (if sz = 0 then (-1, { c with kmem := s }) else (0, ⟨sz, s⟩))

/-- `sys_mprotect` and `sys_munprotect`. -/
def sysProtect (f : ℕ → ℕ) (addr : ℕ) (len : ℤ) (c : Caller) : Except Fault (ℤ × Caller) :=
  if addr < c.sz ∧ ((addr + 1) % (pointers : ℤ)).toNat ≤ c.sz then do
    let (r, s) ← protect P.kalloc f d addr len c.kmem
    pure (r, { c with kmem := s })
  else pure (-1, c)

/-- One call; what the rest of the kernel does is confined to frames of others. -/
def Turn (frames : List ℕ) (c : Caller) : Call → Caller → Prop
  | .sbrk n, c' => ∃ r, growproc P end_ d n c = .ok (r, c')
  | .mprotect addr len, c' =>
      ∃ r, sysProtect P d (fun pte => pte ^^^ (pte &&& pteW)) addr len c = .ok (r, c')
  | .munprotect addr len, c' =>
      ∃ r, sysProtect P d (fun pte => pte ||| pteW) addr len c = .ok (r, c')
  | .others, c' =>
      c'.sz = c.sz ∧ Conserved frames c'.kmem ∧ ∀ A : Space, A.dir = d → A.Holds c.kmem →
        ∃ F F', Confined frameMemory c.kmem F c'.kmem F' ∧ ∀ v ∈ A.frames, v ∉ F

end Model

variable {P : Part} {data end_ d p sz r : ℕ} {n ret len : ℤ} {addr : ℕ} {f : ℕ → ℕ}
  {frames : List ℕ} {c c' : Caller} {e : Call} {es : List Call} {m : User.Memory} {st : State}
  {s t : Kmem} {A A' : Space}

/-- The event of user memory that a call is, with the frames that it gets. -/
def Call.event (e : Call) (fs : List ℕ) (m : User.Memory) : User.Event :=
  match e with
  | .sbrk n => .sbrk n fs
  | .mprotect addr len => .mprotect addr len
  | .munprotect addr len => .munprotect addr len
  | .others => .others m.byte

/-- The call leaves the page mapped, and it is no successful `munprotect` that covers it. -/
def KeepsPage (P : Part) (d p : ℕ) (c : Caller) (e : Call) (c' : Caller) : Prop :=
  Present (lookup c'.kmem d p) ∧
    match e with
    | .munprotect addr len =>
        sysProtect P d (fun pte => pte ||| pteW) addr len c = .ok (0, c') → p ∉ region addr len
    | _ => True

/-- The memory of the kernel holds that of a process. -/
structure Backs (frames : List ℕ) (d : ℕ) (c : Caller) (m : User.Memory) : Prop where
  conserved : Conserved frames c.kmem
  space : ∃ A : Space, A.dir = d ∧ A.Ready ∧ A.Holds c.kmem
  sz : m.sz = c.sz
  table : m.pte = userTable c.kmem d

/-! ### One call -/

theorem Backs.evolves {m' : User.Memory} (hev : Evolves frames s A t A') (hA : A.Ready)
    (hsz : m'.sz = sz) (htable : m'.pte = userTable t A.dir) : Backs frames A.dir ⟨sz, t⟩ m' :=
  ⟨hev.conserved, ⟨A', hev.dir, hev.ready hA, hev.holds⟩, hsz, htable⟩

/-- `growproc` is that of user memory. -/
theorem growproc_refines (hP : P = partA ∨ P = partB) (hF : Frames end_ frames)
    (hB : Backs frames d c m) (hv : User.Valid m) (h : growproc P end_ d n c = .ok (ret, c')) :
    ∃ fs m', User.Fresh fs m ∧ User.growproc n fs m = some (ret, m') ∧ Backs frames d c' m' := by
  obtain ⟨A, rfl, hready, hholds⟩ := hB.space
  have hsz : c.sz ≤ usertop := hB.sz ▸ hv.sz_le
  have hnone : User.Fresh [] m := ⟨by simp, .nil, by simp⟩
  rw [growproc] at h
  dsimp only at h
  split at h
  · rename_i h0
    obtain ⟨rfl, rfl⟩ := Prod.mk.inj (pure_ok.1 h)
    exact ⟨[], m, hnone, if_pos h0, hB⟩
  rename_i h0
  obtain ⟨⟨sz', s⟩, hresize, h⟩ := bind_ok.1 h
  -- what the new size and the new entries are
  obtain ⟨fs, m₁, A', hfresh, huser, hev, hsz₁, htable⟩ : ∃ fs m₁ A', User.Fresh fs m ∧
      (if 0 < n then User.allocuvm m.sz ((m.sz + n) % pointers).toNat fs m
        else User.deallocuvm m.sz ((m.sz + n) % pointers).toNat m) = some (sz', m₁) ∧
      Evolves frames c.kmem A s A' ∧ m₁.sz = m.sz ∧ m₁.pte = userTable s A.dir := by
    rw [hB.sz]
    split at hresize
    · rename_i hpos
      obtain ⟨A', hev, huser⟩ := allocuvm_evolves hP hF hB.conserved hholds hready hresize
      obtain ⟨fs, m₁, hfresh, halloc, hsz₁, htable⟩ := huser m hB.table
      exact ⟨fs, m₁, A', hfresh, by rw [if_pos hpos, halloc], hev, hsz₁.trans hB.sz, htable⟩
    · rename_i hneg
      obtain ⟨s', hdealloc, hresize⟩ := bind_ok.1 hresize
      obtain ⟨rfl, rfl⟩ := Prod.mk.inj (pure_ok.1 hresize)
      obtain ⟨A', hev, huser⟩ := deallocuvm_evolves hF hsz hB.conserved hholds hready hdealloc
      obtain ⟨m₁, hdealloc', hsz₁, htable⟩ := huser m hB.table
      exact ⟨[], m₁, A', hnone, by rw [if_neg hneg, hdealloc'], hev, hsz₁.trans hB.sz, htable⟩
  have hgrow : User.growproc n fs m =
      some (if sz' = 0 then (-1, m₁) else (0, { m₁ with sz := sz' })) := by
    rw [User.growproc]
    dsimp only
    rw [if_neg h0, huser]
    rfl
  obtain h := pure_ok.1 h
  split at h
  · rename_i hzero
    obtain ⟨rfl, rfl⟩ := Prod.mk.inj h
    exact ⟨fs, m₁, hfresh, by rw [hgrow, if_pos hzero],
      .evolves hev hready (hsz₁.trans hB.sz) htable⟩
  · rename_i hne
    obtain ⟨rfl, rfl⟩ := Prod.mk.inj h
    exact ⟨fs, { m₁ with sz := sz' }, hfresh, by rw [hgrow, if_neg hne],
      .evolves hev hready rfl htable⟩

/-- `sys_mprotect` and `sys_munprotect` are those of user memory. -/
theorem sysProtect_refines (hF : Frames end_ frames) (hf : KeepsFrame f) (hB : Backs frames d c m)
    (h : sysProtect P d f addr len c = .ok (ret, c')) : ∃ m',
      (if User.argptr addr 1 m then User.protectLoop f addr len m else (-1, m)) = (ret, m') ∧
        Backs frames d c' m' := by
  obtain ⟨A, rfl, hready, hholds⟩ := hB.space
  rw [sysProtect] at h
  split at h
  · rename_i harg
    obtain ⟨⟨r, s⟩, hprotect, h⟩ := bind_ok.1 h
    obtain ⟨rfl, rfl⟩ := Prod.mk.inj (pure_ok.1 h)
    obtain ⟨t, hprotect', hev, htable⟩ :=
      protect_refines P.kalloc hF hf hB.conserved hholds hready addr len hB.table
    rw [hprotect] at hprotect'
    obtain ⟨rfl, rfl⟩ := Prod.mk.inj (Except.ok.inj hprotect')
    have hrest := User.protectLoop_rest f addr len m
    refine ⟨(User.protectLoop f addr len m).2, ?_, .evolves hev hready (hrest.1.trans hB.sz) htable⟩
    rw [if_pos (show User.argptr addr 1 m by rw [User.argptr, hB.sz]; exact harg)]
  · rename_i harg
    obtain ⟨rfl, rfl⟩ := Prod.mk.inj (pure_ok.1 h)
    refine ⟨m, ?_, hB⟩
    rw [if_neg (show ¬User.argptr addr 1 m by rw [User.argptr, hB.sz]; exact harg)]

/-- **A call is a step of user memory**. -/
theorem call_refines (hP : P = partA ∨ P = partB) (hF : Frames end_ frames)
    (hB : Backs frames d c m) (hv : User.Valid m) (h : Turn P end_ d frames c e c') :
    ∃ fs m', User.Step m (e.event fs m) m' ∧ Backs frames d c' m' ∧
      ∀ p < 160, KeepsPage P d p c e c' → User.Keeps p m (e.event fs m) m' := by
  have hpresent : ∀ {m' : User.Memory}, Backs frames d c' m' → ∀ p < 160,
      Present (lookup c'.kmem d p) → Present (m'.pte p) := fun hB' p hp hpage => by
    rwa [hB'.table, userTable_of_lt hp]
  cases e with
  | sbrk n =>
    obtain ⟨ret, h⟩ := h
    obtain ⟨fs, m', hfresh, hgrow, hB'⟩ := growproc_refines hP hF hB hv h
    exact ⟨fs, m', ⟨hfresh, ret, hgrow⟩, hB', fun p hp hkeeps => hpresent hB' p hp hkeeps.1⟩
  | mprotect addr len =>
    obtain ⟨ret, h⟩ := h
    obtain ⟨m', hm', hB'⟩ := sysProtect_refines hF keepsFrame_clear hB h
    refine ⟨[], m', ?_, hB', fun p hp hkeeps => hpresent hB' p hp hkeeps.1⟩
    show m' = (User.sysMprotect addr len m).2
    rw [User.sysMprotect, User.mprotect, hm']
  | munprotect addr len =>
    obtain ⟨ret, h⟩ := h
    obtain ⟨m', hm', hB'⟩ := sysProtect_refines hF keepsFrame_set hB h
    have hcall : User.sysMunprotect addr len m = (ret, m') := hm'
    refine ⟨[], m', ?_, hB', fun p hp hkeeps hzero => hkeeps.2 ?_⟩
    · show m' = (User.sysMunprotect addr len m).2
      rw [hcall]
    · rw [hcall] at hzero
      rw [h, show ret = 0 from hzero]
  | others =>
    obtain ⟨hsz, hC, hothers⟩ := h
    obtain ⟨A, rfl, hready, hholds⟩ := hB.space
    obtain ⟨F, F', hc, hdisjoint⟩ := hothers A rfl hholds
    have hB' : Backs frames A.dir c' m := ⟨hC, ⟨A, rfl, hready, hholds.others hc hdisjoint⟩,
      hB.sz.trans hsz.symm,
      hB.table.trans (userTable_congr (hholds.lookup_others hc hdisjoint)).symm⟩
    exact ⟨[], m, ⟨rfl, fun _ _ _ _ => rfl⟩, hB', fun p hp hkeeps => hpresent hB' p hp hkeeps.1⟩

/-! ### Runs -/

/-- The user memory of a page directory of the kernel. -/
theorem backs_reached (hP : P = partA ∨ P = partB) (hL : Layout data) (hr : Reached P data end_ st)
    (hd : d ∈ st.pgdirs) (hsz : sz ≤ usertop)
    (hbelow : ∀ q < 160, Present (lookup st.kmem d q) → q * pgsize < sz) :
    ∃ m, Backs (managedFrames end_ P.stride) d ⟨sz, st.kmem⟩ m ∧ User.Valid m := by
  obtain ⟨hF, G, hI⟩ := isolated_reached hP hL hr
  obtain ⟨A, hA⟩ := (hI.live d).1 hd
  obtain ⟨rfl, hready, hholds⟩ := hI.space d A hA
  have huser : ∀ q, Present (userTable st.kmem A.dir q) →
      q < 160 ∧ ∃ v, A.user q = some v ∧ pteAddr (userTable st.kmem A.dir q) = v := by
    intro q hq
    have hlt : q < 160 := by
      by_contra hge
      rw [userTable, if_neg hge] at hq
      exact not_present_zero hq
    rw [userTable_of_lt hlt] at hq ⊢
    obtain ⟨v, hv⟩ := (hholds.present_iff hlt).1 hq
    exact ⟨hlt, v, hv, hholds.pteAddr_eq hv⟩
  refine ⟨⟨sz, userTable st.kmem A.dir, fun _ => 0⟩,
    ⟨hI.conserved, ⟨A, rfl, hready, hholds⟩, rfl, rfl⟩, hsz, fun q hq => ?_,
    fun q q' hq hq' heq => ?_⟩
  · have hlt := (huser q hq).1
    exact hbelow q hlt (by rwa [← userTable_of_lt hlt])
  · obtain ⟨-, v, hv, hpa⟩ := huser q hq
    obtain ⟨-, v', hv', hpa'⟩ := huser q' hq'
    change pteAddr (userTable st.kmem A.dir q) = pteAddr (userTable st.kmem A.dir q') at heq
    rw [hpa, hpa'] at heq
    exact hholds.inj q q' v hv (heq ▸ hv')

/-- **A write-protected page stays so** in every run of calls that keeps it. -/
theorem stays_protected (hP : P = partA ∨ P = partB) (hL : Layout data)
    (hr : Reached P data end_ st) (hd : d ∈ st.pgdirs) (hsz : sz ≤ usertop)
    (hbelow : ∀ q < 160, Present (lookup st.kmem d q) → q * pgsize < sz) (hp : p < 160)
    (hprot : Present (lookup st.kmem d p) ∧ ¬Writable (lookup st.kmem d p))
    (hrun : Run (fun c e c' => Turn P end_ d (managedFrames end_ P.stride) c e c' ∧
      KeepsPage P d p c e c') ⟨sz, st.kmem⟩ es c') :
    Present (lookup c'.kmem d p) ∧ ¬Writable (lookup c'.kmem d p) := by
  obtain ⟨hF, -⟩ := isolated_reached hP hL hr
  obtain ⟨m, hB, hv⟩ := backs_reached hP hL hr hd hsz hbelow
  have hm : User.Protected p m := by
    rw [User.Protected, hB.table, userTable_of_lt hp]
    exact hprot
  have hall := hrun.invariant (I := fun c => ∃ m,
    Backs (managedFrames end_ P.stride) d c m ∧ User.Valid m ∧ User.Protected p m) ⟨m, hB, hv, hm⟩
    ?_
  · obtain ⟨m', hB', -, hm'⟩ := hall
    rwa [User.Protected, hB'.table, userTable_of_lt hp] at hm'
  · rintro c e c₁ ⟨m, hB, hv, hm⟩ ⟨hturn, hkeeps⟩
    obtain ⟨fs, m₁, hstep, hB₁, hkeeps₁⟩ := call_refines hP hF hB hv hturn
    -- A call of the process stores nothing through its pointers.
    have hsilent : User.output m (e.event fs m) = [] := by cases e <;> rfl
    obtain ⟨hv₁, hprot₁⟩ := User.step_spec (q := p) hv hstep (by simp [User.SparesKernel, hsilent])
    exact ⟨m₁, hB₁, hv₁, (hprot₁ hm (hkeeps₁ p hp hkeeps) (by simp [hsilent])).1⟩

end OsProjects.Vm
