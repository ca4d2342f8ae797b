import Mathlib.Data.Nat.Bitwise
import OsProjects.Alloc.Model

/-!
# Page tables and fork

`kernel/vm.c`, with `allocproc` and `fork` of `kernel/proc.c`, the same in both parts, over the
allocator.  Page directories, page tables, trap frames and user pages are words of physical memory,
read and written through the addresses the code computes.

`kalloc` is a parameter, so that a run can be watched at the calls that return `NULL`; `data` and
`end_` are linker symbols.  A loop `for (a = first; ; a += PGSIZE)` that ends at `a == last` is a
list of pages.  fork is atomic: no other process allocates or frees while it runs.
-/

namespace OsProjects.Vm

open Alloc (Fault Kmem pgsize phystop pointers kfree)

/-! ### Words of memory -/

/-- `*(uint*)a = w;` -/
def store (a w : ℕ) (s : Kmem) : Kmem := { s with next := Function.update s.next a w }

/-- `memset(v, 0, PGSIZE);` -/
def clear (v : ℕ) (s : Kmem) : Kmem :=
  { s with next := fun a => if v ≤ a ∧ a < v + pgsize then 0 else s.next a }

/-- `memmove(dst, src, PGSIZE);` -/
def copyPage (dst src : ℕ) (s : Kmem) : Kmem :=
  { s with
    next := fun a => if dst ≤ a ∧ a < dst + pgsize then s.next (src + (a - dst)) else s.next a }

/-- The words of `*dst = *src` for a structure of `n` words. -/
def copyWords (dst src n : ℕ) (s : Kmem) : Kmem :=
  (List.range n).foldl (fun s i => store (dst + 4 * i) (s.next (src + 4 * i)) s) s

/-! ### Page table entries -/

def usertop : ℕ := 0xA0000
def npdentries : ℕ := 1024

def pteP : ℕ := 0x001
def pteW : ℕ := 0x002
def pteU : ℕ := 0x004

/-- `PTE_ADDR` -/
def pteAddr (pte : ℕ) : ℕ := pte / pgsize * pgsize

/-- `pte & PTE_P` -/
def Present (pte : ℕ) : Prop := pte &&& pteP ≠ 0

instance (pte : ℕ) : Decidable (Present pte) := inferInstanceAs (Decidable (_ ≠ _))

theorem present_iff {w : ℕ} : Present w ↔ w.testBit 0 = true := by
  rw [Present, show pteP = 2 ^ 0 from rfl, Nat.and_two_pow]
  cases w.testBit 0 <;> simp

theorem not_present_zero : ¬Present 0 := by decide

theorem present_or (w flags : ℕ) (h : Present flags) : Present (w ||| flags) := by
  rw [present_iff] at h ⊢
  rw [Nat.testBit_or, h, Bool.or_true]

theorem pteAddr_or {v flags : ℕ} (hv : v % pgsize = 0) (hf : flags < pgsize) :
    pteAddr (v ||| flags) = v := by
  obtain ⟨k, rfl⟩ : ∃ k, v = 2 ^ 12 * k := ⟨v / pgsize, by unfold pgsize at *; omega⟩
  rw [← Nat.two_pow_add_eq_or_of_lt hf, pteAddr, pgsize]
  unfold pgsize at hf
  omega

/-- Flags are below bit 12. -/
theorem pteAddr_congr {w w' : ℕ} (h : ∀ i, 12 ≤ i → w.testBit i = w'.testBit i) :
    pteAddr w = pteAddr w' := by
  have hshift : ∀ w, pteAddr w = w >>> 12 * pgsize := fun w => by
    rw [Nat.shiftRight_eq_div_pow]
    rfl
  rw [hshift, hshift]
  congr 1
  apply Nat.eq_of_testBit_eq
  intro i
  rw [Nat.testBit_shiftRight, Nat.testBit_shiftRight]
  exact h _ (Nat.le_add_right _ _)

/-- `PDX` -/
def pdx (la : ℕ) : ℕ := la / 2 ^ 22 % 1024

/-- `PTX` -/
def ptx (la : ℕ) : ℕ := la / 2 ^ 12 % 1024

/-- `PGROUNDDOWN` -/
def pgrounddown (a : ℕ) : ℕ := a / pgsize * pgsize

section Tables

variable (kalloc : Kmem → Except Fault (ℕ × Kmem)) (data end_ : ℕ)

/-- `walkpgdir`: the address of the entry of `va`, or `NULL`. -/
def walkpgdir (pgdir va : ℕ) (create : Bool) (s : Kmem) : Except Fault (ℕ × Kmem) :=
  let pde := pgdir + 4 * pdx va
  if Present (s.next pde) then
    pure (pteAddr (s.next pde) + 4 * ptx va, s)
  else if create then do
    let (pgtab, s) ← kalloc s
    if pgtab = 0 then
      pure (0, s)
    else
      pure (pgtab + 4 * ptx va, store pde (pgtab ||| pteP ||| pteW ||| pteU) (clear pgtab s))
  else
    pure (0, s)

/-- What a turn of `mappages` maps: a page, a physical address and the permissions. -/
structure Mapping where
  a : ℕ
  pa : ℕ
  perm : ℕ

/-- The turns of `mappages`; additions wrap around. -/
def mappings (la size pa perm : ℕ) : List Mapping :=
  let a := pgrounddown la
  let last := pgrounddown ((la + size + (pointers - 1)) % pointers)
  (List.range ((last + pointers - a) % pointers / pgsize + 1)).map fun i =>
    ⟨(a + pgsize * i) % pointers, (pa + pgsize * i) % pointers, perm⟩

/-- The loop of `mappages`, `true` for `0` and `false` for `-1`. -/
def mapLoop (pgdir : ℕ) : List Mapping → Kmem → Except Fault (Bool × Kmem)
  | [], s => pure (true, s)
  | m :: ms, s => do
    let (pte, s) ← walkpgdir kalloc pgdir m.a true s
    if pte = 0 then pure (false, s)
    else if Present (s.next pte) then throw (.panic "remap")
    else mapLoop pgdir ms (store pte (m.pa ||| m.perm ||| pteP) s)

/-- `mappages` -/
def mappages (pgdir la size pa perm : ℕ) (s : Kmem) : Except Fault (Bool × Kmem) :=
  mapLoop kalloc pgdir (mappings la size pa perm) s

/-- `struct kmap` -/
structure Kmap where
  p : ℕ
  e : ℕ
  perm : ℕ

/-- `kmap` -/
def kmap : List Kmap :=
  [⟨usertop, 0x100000, pteW⟩, ⟨0x100000, data, 0⟩, ⟨data, phystop, pteW⟩, ⟨0xFE000000, 0, pteW⟩]

/-- The loop of `setupkvm` over `kmap`. -/
def kmapLoop (pgdir : ℕ) : List Kmap → Kmem → Except Fault (Bool × Kmem)
  | [], s => pure (true, s)
  | k :: ks, s => do
    let (ok, s) ← mappages kalloc pgdir k.p ((k.e + pointers - k.p) % pointers) k.p k.perm s
    if ok then kmapLoop pgdir ks s else pure (false, s)

/-- `setupkvm`: the page directory, or `NULL`. -/
def setupkvm (s : Kmem) : Except Fault (ℕ × Kmem) := do
  let (pgdir, s) ← kalloc s
  if pgdir = 0 then
    pure (0, s)
  else do
    let (ok, s) ← kmapLoop kalloc pgdir (kmap data) (clear pgdir s)
    pure (if ok then pgdir else 0, s)

/-- The body of `deallocuvm` for the page at `a`. -/
def deallocPage (pgdir a : ℕ) (s : Kmem) : Except Fault Kmem := do
  let (pte, s) ← walkpgdir kalloc pgdir a false s
  if pte ≠ 0 ∧ Present (s.next pte) then do
    let pa := pteAddr (s.next pte)
    if pa = 0 then throw (.panic "kfree")
    let s ← kfree end_ pa s
    pure (store pte 0 s)
  else
    pure s

/-- The pages of `for (a = PGROUNDUP(first); a < last; a += PGSIZE)`. -/
def pagesBetween (first last : ℕ) : List ℕ :=
  (List.range ((last + (pgsize - 1) - Alloc.pgroundup first) / pgsize)).map fun i =>
    Alloc.pgroundup first + pgsize * i

/-- `deallocuvm`, without the new size, which `freevm` does not look at. -/
def deallocuvm (pgdir oldsz newsz : ℕ) (s : Kmem) : Except Fault Kmem :=
  if oldsz ≤ newsz then pure s
  else (pagesBetween newsz oldsz).foldlM (fun s a => deallocPage kalloc end_ pgdir a s) s

/-- The loop of `allocuvm`, `false` where `kalloc` returns `NULL`; the result of `mappages` is not
looked at. -/
def allocLoop (pgdir : ℕ) : List ℕ → Kmem → Except Fault (Bool × Kmem)
  | [], s => pure (true, s)
  | a :: as, s => do
    let (mem, s) ← kalloc s
    if mem = 0 then pure (false, s)
    else do
      let (_, s) ← mappages kalloc pgdir a pgsize mem (pteW ||| pteU) (clear mem s)
      allocLoop pgdir as s

/-- `allocuvm`: the new size, or `0`. -/
def allocuvm (pgdir oldsz newsz : ℕ) (s : Kmem) : Except Fault (ℕ × Kmem) :=
  if usertop < newsz then pure (0, s)
  else if newsz < oldsz then pure (oldsz, s)
  else do
    let (ok, s) ← allocLoop kalloc pgdir (pagesBetween oldsz newsz) s
    if ok then pure (newsz, s)
    else do
      let s ← deallocuvm kalloc end_ pgdir newsz oldsz s
      pure (0, s)

/-- The body of the second loop of `freevm`. -/
def freeTable (pgdir i : ℕ) (s : Kmem) : Except Fault Kmem :=
  if Present (s.next (pgdir + 4 * i)) then kfree end_ (pteAddr (s.next (pgdir + 4 * i))) s
  else pure s

/-- `freevm` -/
def freevm (pgdir : ℕ) (s : Kmem) : Except Fault Kmem :=
  if pgdir = 0 then throw (.panic "freevm: no pgdir")
  else do
    let s ← deallocuvm kalloc end_ pgdir usertop 0 s
    let s ← (List.range npdentries).foldlM (fun s i => freeTable end_ pgdir i s) s
    kfree end_ pgdir s

/-- The loop of `copyuvm` over the pages of the parent; `false` stands for `goto bad`. -/
def copyLoop (pgdir d : ℕ) : List ℕ → Kmem → Except Fault (Bool × Kmem)
  | [], s => pure (true, s)
  | i :: is, s => do
    let (pte, s) ← walkpgdir kalloc pgdir i false s
    if pte = 0 then throw (.panic "copyuvm: pte should exist")
    if ¬Present (s.next pte) then throw (.panic "copyuvm: page not present")
    let writable := s.next pte &&& pteW
    let pa := pteAddr (s.next pte)
    let (mem, s) ← kalloc s
    if mem = 0 then pure (false, s)
    else do
      let (ok, s) ← mappages kalloc d i pgsize mem (writable ||| pteU) (copyPage mem pa s)
      if ok then copyLoop pgdir d is s else pure (false, s)

/-- `copyuvm`: the page directory of the copy, or `NULL`. -/
def copyuvm (pgdir sz : ℕ) (s : Kmem) : Except Fault (ℕ × Kmem) := do
  let (d, s) ← setupkvm kalloc data s
  if d = 0 then pure (0, s)
  else do
    let (ok, s) ← copyLoop kalloc pgdir d (pagesBetween 0 sz) s
    if ok then pure (d, s)
    else do
      let s ← freevm kalloc end_ d s
      pure (0, s)

end Tables

/-! ### Processes -/

def nproc : ℕ := 64
def nofile : ℕ := 16
def kstacksize : ℕ := 4096

/-- `enum procstate` -/
inductive ProcState
  | unused
  | embryo
  | sleeping
  | runnable
  | running
  | zombie
  deriving DecidableEq

/-- A slot of `ptable.proc`. -/
abbrev Slot := Fin nproc

instance : NeZero nproc := ⟨by decide⟩

/-- The part of `struct proc` that fork reads or writes; a file and an inode are their addresses,
and the name is its bytes before the NUL. -/
structure Proc where
  sz : ℕ
  pgdir : ℕ
  kstack : ℕ
  state : ProcState
  pid : ℕ
  parent : Option Slot
  tf : ℕ
  context : ℕ
  ofile : Fin nofile → Option ℕ
  cwd : ℕ
  name : List UInt8

/-- Memory, the process table, and the reference counts of files and inodes. -/
structure Kernel where
  kmem : Kmem
  ptable : Slot → Proc
  nextpid : ℕ
  fileRef : ℕ → ℤ
  inodeRef : ℕ → ℤ

def Kernel.setProc (k : Kernel) (p : Slot) (np : Proc) : Kernel :=
  { k with ptable := Function.update k.ptable p np }

/-- The sizes of `struct trapframe` and `struct context`, and the offsets of `eax` and `eip`. -/
def sizeofTrapframe : ℕ := 76
def sizeofContext : ℕ := 20
def eaxOffset : ℕ := 28
def eipOffset : ℕ := 16

/-- The size of the array `name`. -/
def sizeofName : ℕ := 16

section Fork

variable (kalloc : Kmem → Except Fault (ℕ × Kmem)) (data end_ trapret forkret : ℕ)

/-- The frame that `allocproc` prepares on a new kernel stack. -/
def initStack (kstack : ℕ) (s : Kmem) : Kmem :=
  let tf := kstack + kstacksize - sizeofTrapframe
  let context := tf - 4 - sizeofContext
  let s := store (tf - 4) trapret s
  let s := (List.range (sizeofContext / 4)).foldl (fun s i => store (context + 4 * i) 0 s) s
  store (context + eipOffset) forkret s

/-- The slot that the scan of `allocproc` finds. -/
def unusedSlot (k : Kernel) : Option Slot :=
  (List.finRange nproc).find? fun p => decide ((k.ptable p).state = .unused)

/-- `allocproc`: the slot, if one is unused and its kernel stack can be allocated. -/
def allocproc (k : Kernel) : Except Fault (Option Slot × Kernel) :=
  match unusedSlot k with
  | none => pure (none, k)
  | some p => do
    let np := { k.ptable p with state := .embryo, pid := k.nextpid }
    let k := { k with nextpid := k.nextpid + 1 }
    let (kstack, s) ← kalloc k.kmem
    let k := { k with kmem := s }
    if kstack = 0 then
      pure (none, k.setProc p { np with kstack := 0, state := .unused })
    else
      let tf := kstack + kstacksize - sizeofTrapframe
      let k := { k with kmem := initStack trapret forkret kstack k.kmem }
      pure (some p,
        k.setProc p { np with kstack := kstack, tf := tf, context := tf - 4 - sizeofContext })

/-- `filedup` -/
def filedup (f : ℕ) (k : Kernel) : Except Fault Kernel :=
  if k.fileRef f < 1 then throw (.panic "filedup")
  else pure { k with fileRef := Function.update k.fileRef f (k.fileRef f + 1) }

/-- The loop of fork over the open files. -/
def dupFiles (ofile : Fin nofile → Option ℕ) (k : Kernel) : Except Fault Kernel :=
  (List.finRange nofile).foldlM
    (fun k i => match ofile i with
      | none => pure k
      | some f => filedup f k) k

/-- `fork`, called by the process in the slot `proc`. -/
def fork (proc : Slot) (k : Kernel) : Except Fault (ℤ × Kernel) := do
  let (p, k) ← allocproc kalloc trapret forkret k
  match p with
  | none => pure (-1, k)
  | some p => do
    let cur := k.ptable proc
    let (pgdir, s) ← copyuvm kalloc data end_ cur.pgdir cur.sz k.kmem
    let np := { k.ptable p with pgdir := pgdir }
    let k := { k with kmem := s }
    if pgdir = 0 then do
      let s ← kfree end_ np.kstack k.kmem
      pure (-1, { k with kmem := s }.setProc p { np with kstack := 0, state := .unused })
    else do
      let s := store (np.tf + eaxOffset) 0 (copyWords np.tf cur.tf (sizeofTrapframe / 4) k.kmem)
      let k ← dupFiles cur.ofile { k with kmem := s }
      let ofile := fun i => (cur.ofile i).or (np.ofile i)
      let k := { k with inodeRef := Function.update k.inodeRef cur.cwd (k.inodeRef cur.cwd + 1) }
      pure (np.pid, k.setProc p { np with
        sz := cur.sz, parent := some proc, ofile := ofile, cwd := cur.cwd, state := .runnable,
        name := cur.name.take (sizeofName - 1) })

end Fork

end OsProjects.Vm
