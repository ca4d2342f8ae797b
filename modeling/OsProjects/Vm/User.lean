import OsProjects.Vm.Model
import OsProjects.Foundation.Bytes

/-!
# User memory and its two writers

`mprotect` and `munprotect` of part_a, `growproc`, and the system calls that store through a
pointer of the process: `sys_read`, `sys_fstat`, `sys_pipe` and `sys_dump_allocated`.

All user pages lie in the first page table, which every page directory has, so `walkpgdir` always
finds their entries: the page table is a function from page numbers to entries.  In user mode the
processor checks the bits of an entry.  The kernel sets PE and PG of `%cr0` but not WP, so that its
own stores only need the page to be present.  That the kernel does the same to the page tables in
its memory is `call_refines`.

An event is what the process does next, with the arguments it passes and what the call gets from
elsewhere: the bytes to read, the frames of `kalloc`, the program of `exec`.  A store that faults
and a call that panics have no next state.
-/

namespace OsProjects.Vm.User

open Alloc (pgsize pointers)
open Bytes (leBytes)

/-- A process's memory: its size, its page table, and the bytes of physical memory. -/
structure Memory where
  sz : ℕ
  pte : ℕ → ℕ
  byte : ℕ → UInt8

/-! ### Entries and bytes -/

/-- `pte & PTE_W` -/
def Writable (pte : ℕ) : Prop := pte &&& pteW ≠ 0

/-- `pte & PTE_U` -/
def UserPage (pte : ℕ) : Prop := pte &&& pteU ≠ 0

instance (pte : ℕ) : Decidable (Writable pte) := inferInstanceAs (Decidable (_ ≠ _))

instance (pte : ℕ) : Decidable (UserPage pte) := inferInstanceAs (Decidable (_ ≠ _))

/-- The page number of an address. -/
def page (va : ℕ) : ℕ := va / pgsize

namespace Memory

def setPte (m : Memory) (q pte : ℕ) : Memory := { m with pte := Function.update m.pte q pte }

def setByte (m : Memory) (a : ℕ) (b : UInt8) : Memory :=
  { m with byte := Function.update m.byte a b }

/-- `memset(v, b, PGSIZE);` -/
def fill (m : Memory) (v : ℕ) (b : UInt8) : Memory :=
  { m with byte := fun a => if v ≤ a ∧ a < v + pgsize then b else m.byte a }

/-- The physical address of a virtual one. -/
def phys (m : Memory) (va : ℕ) : ℕ := pteAddr (m.pte (page va)) + va % pgsize

/-- The byte at an offset of a page. -/
def content (m : Memory) (q off : ℕ) : UInt8 := m.byte (pteAddr (m.pte q) + off)

@[simp] theorem setPte_pte (m : Memory) (q pte : ℕ) :
    (m.setPte q pte).pte = Function.update m.pte q pte := rfl

@[simp] theorem setPte_byte (m : Memory) (q pte : ℕ) : (m.setPte q pte).byte = m.byte := rfl

@[simp] theorem setPte_sz (m : Memory) (q pte : ℕ) : (m.setPte q pte).sz = m.sz := rfl

@[simp] theorem setByte_pte (m : Memory) (a : ℕ) (b : UInt8) : (m.setByte a b).pte = m.pte := rfl

@[simp] theorem setByte_byte (m : Memory) (a : ℕ) (b : UInt8) :
    (m.setByte a b).byte = Function.update m.byte a b := rfl

@[simp] theorem setByte_sz (m : Memory) (a : ℕ) (b : UInt8) : (m.setByte a b).sz = m.sz := rfl

@[simp] theorem fill_pte (m : Memory) (v : ℕ) (b : UInt8) : (m.fill v b).pte = m.pte := rfl

@[simp] theorem fill_sz (m : Memory) (v : ℕ) (b : UInt8) : (m.fill v b).sz = m.sz := rfl

end Memory

/-! ### Stores -/

/-- Where the extended memory starts, with the kernel in it. -/
def extmem : ℕ := 0x100000

/-- A store in user mode. -/
def userStore (va : ℕ) (b : UInt8) (m : Memory) : Option Memory :=
  if va < usertop ∧ Present (m.pte (page va)) ∧ UserPage (m.pte (page va)) ∧
      Writable (m.pte (page va)) then
    some (m.setByte (m.phys va) b)
  else none

/-- A store of the kernel.  Between user memory and the kernel lies the I/O space; a store into the
kernel's own memory may do anything. -/
def KernelStore (va : ℕ) (b : UInt8) (m m' : Memory) : Prop :=
  if va < usertop then Present (m.pte (page va)) ∧ m' = m.setByte (m.phys va) b
  else if va < extmem then m' = m
  else True

/-- Stores of the kernel, one after the other. -/
def KernelStores : List (ℕ × UInt8) → Memory → Memory → Prop
  | [], m, m' => m' = m
  | s :: ss, m, m' => ∃ m₁, KernelStore s.1 s.2 m m₁ ∧ KernelStores ss m₁ m'

/-! ### mprotect and munprotect -/

/-- `(uint)addr + len * PGSIZE`, wrapping around. -/
def regionEnd (addr : ℕ) (len : ℤ) : ℕ := ((addr + len * pgsize) % pointers).toNat

/-- The pages of `for (i = addr; i < addr + len * PGSIZE; i = i + PGSIZE)`. -/
def region (addr : ℕ) (len : ℤ) : List ℕ :=
  List.range' (page addr) ((regionEnd addr len - addr + (pgsize - 1)) / pgsize)

/-- The check and the loop that `mprotect` and `munprotect` share. -/
def protectLoop (f : ℕ → ℕ) (addr : ℕ) (len : ℤ) (m : Memory) : ℤ × Memory :=
  if addr % pgsize ≠ 0 ∨ usertop < regionEnd addr len ∨ len ≤ 0 then (-1, m)
  else (0, (region addr len).foldl (fun m q => m.setPte q (f (m.pte q))) m)

/-- `mprotect`: `*pte = *pte & ~PTE_W;` -/
def mprotect : ℕ → ℤ → Memory → ℤ × Memory := protectLoop fun pte => pte ^^^ (pte &&& pteW)

/-- `munprotect`: `*pte = *pte | PTE_W;` -/
def munprotect : ℕ → ℤ → Memory → ℤ × Memory := protectLoop fun pte => pte ||| pteW

/-- The check of `argptr`. -/
def argptr (i : ℕ) (size : ℤ) (m : Memory) : Prop :=
  i < m.sz ∧ ((i + size) % pointers).toNat ≤ m.sz

instance (i : ℕ) (size : ℤ) (m : Memory) : Decidable (argptr i size m) :=
  inferInstanceAs (Decidable (_ ∧ _))

/-- `sys_mprotect`, with its arguments. -/
def sysMprotect (addr : ℕ) (len : ℤ) (m : Memory) : ℤ × Memory :=
  if argptr addr 1 m then mprotect addr len m else (-1, m)

/-- `sys_munprotect`, with its arguments. -/
def sysMunprotect (addr : ℕ) (len : ℤ) (m : Memory) : ℤ × Memory :=
  if argptr addr 1 m then munprotect addr len m else (-1, m)

/-! ### growproc -/

/-- The loop of `deallocuvm`.  A freed frame is filled with junk. -/
def deallocLoop : List ℕ → Memory → Option Memory
  | [], m => some m
  | a :: as, m =>
    let pte := m.pte (page a)
    if Present pte then
      if pteAddr pte = 0 then none
      else deallocLoop as ((m.fill (pteAddr pte) 1).setPte (page a) 0)
    else deallocLoop as m

/-- `deallocuvm`: the new size. -/
def deallocuvm (oldsz newsz : ℕ) (m : Memory) : Option (ℕ × Memory) :=
  if oldsz ≤ newsz then some (oldsz, m)
  else (deallocLoop (pagesBetween newsz oldsz) m).map fun m => (newsz, m)

/-- The loop of `allocuvm`; when `frames` is used up, `kalloc` returns `NULL`. -/
def allocLoop : List ℕ → List ℕ → Memory → Option (Bool × Memory)
  | [], _, m => some (true, m)
  | _ :: _, [], m => some (false, m)
  | a :: as, mem :: frames, m =>
    if Present (m.pte (page a)) then none
    else allocLoop as frames
      ((m.fill mem 0).setPte (page a) (mem ||| (pteW ||| pteU) ||| pteP))

/-- `allocuvm`: the new size, or `0`. -/
def allocuvm (oldsz newsz : ℕ) (frames : List ℕ) (m : Memory) : Option (ℕ × Memory) :=
  if usertop < newsz then some (0, m)
  else if newsz < oldsz then some (oldsz, m)
  else do
    let (ok, m) ← allocLoop (pagesBetween oldsz newsz) frames m
    if ok then some (newsz, m)
    else do
      let (_, m) ← deallocuvm newsz oldsz m
      some (0, m)

/-- `growproc` -/
def growproc (n : ℤ) (frames : List ℕ) (m : Memory) : Option (ℤ × Memory) :=
  let newsz := ((m.sz + n) % pointers).toNat
  let resized := if 0 < n then allocuvm m.sz newsz frames m else deallocuvm m.sz newsz m
  if n = 0 then some (0, m)
  else resized.map fun r => if r.1 = 0 then (-1, r.2) else (0, { r.2 with sz := r.1 })

/-! ### Output buffers -/

/-- What a file descriptor reads from. -/
inductive Source
  | pipe (data : List UInt8)
  | device (data : List UInt8)
  | file (content : List UInt8) (off : ℕ)
  | unreadable

/-- The bytes that `fileread` stores. -/
def fileread : Source → ℤ → List UInt8
  | .pipe data, n => data.take n.toNat
  | .device data, n => data.take n.toNat
  | .file content off, n =>
    let n := (n % pointers).toNat
    if content.length < off ∨ (off + n) % pointers < off then []
    else (content.drop off).take n
  | .unreadable, _ => []

/-- `struct stat` -/
structure Stat where
  type : ℕ
  dev : ℕ
  ino : ℕ
  nlink : ℕ
  size : ℕ

/-- Bytes stored one after the other. -/
def storesAt (p : ℕ) (bytes : List UInt8) : List (ℕ × UInt8) :=
  bytes.zipIdx.map fun x => ((p + x.2) % pointers, x.1)

/-- The stores of `stati`. -/
def stati (p : ℕ) (st : Stat) : List (ℕ × UInt8) :=
  storesAt (p + 4) (leBytes 4 st.dev) ++ storesAt (p + 8) (leBytes 4 st.ino) ++
    storesAt p (leBytes 2 st.type) ++ storesAt (p + 12) (leBytes 2 st.nlink) ++
    storesAt (p + 16) (leBytes 4 st.size)

/-- The stores of `dump_allocated`, with the entries of `alloc_list`. -/
def dumpAllocated (frames : ℕ) (numframes : ℤ) (allocList : List ℕ) : List (ℕ × UInt8) :=
  if numframes < 0 ∨ allocList.length < numframes then []
  else storesAt frames ((allocList.reverse.take numframes.toNat).flatMap (leBytes 4))

/-! ### Steps -/

/-- A user store, a system call, or what happens elsewhere. -/
inductive Event
  | store (va : ℕ) (b : UInt8)
  | mprotect (addr : ℕ) (len : ℤ)
  | munprotect (addr : ℕ) (len : ℤ)
  | sbrk (n : ℤ) (frames : List ℕ)
  | read (p : ℕ) (n : ℤ) (src : Source)
  /-- `none` for a descriptor that is not an inode's. -/
  | fstat (p : ℕ) (st : Option Stat)
  /-- `none` where no pipe or descriptor is free. -/
  | pipe (p : ℕ) (fd : Option (ℕ × ℕ))
  | dumpAllocated (frames : ℕ) (numframes : ℤ) (allocList : List ℕ)
  /-- An `exec` that succeeds. -/
  | exec (image : Memory)
  /-- Frames that are not the process's are written. -/
  | others (byte : ℕ → UInt8)

/-- What the kernel stores through a pointer that the process has passed. -/
def output (m : Memory) : Event → List (ℕ × UInt8)
  | .read p n src => if argptr p n m then storesAt p (fileread src n) else []
  | .fstat p (some st) => if argptr p 20 m then stati p st else []
  | .pipe p (some fd) =>
    if argptr p 8 m then storesAt p (leBytes 4 fd.1) ++ storesAt (p + 4) (leBytes 4 fd.2) else []
  | .dumpAllocated frames numframes allocList => dumpAllocated frames numframes allocList
  | _ => []

/-- What exec and fork build: the pages below the size are mapped, each to a frame of its own. -/
structure Image (m : Memory) : Prop where
  sz_le : m.sz ≤ usertop
  present : ∀ q, Present (m.pte q) ↔ q * pgsize < m.sz
  user : ∀ q, Present (m.pte q) → UserPage (m.pte q)
  distinct : ∀ q q', Present (m.pte q) → Present (m.pte q') →
    pteAddr (m.pte q) = pteAddr (m.pte q') → q = q'

/-- Frames that `kalloc` can return: whole, different, and not those of the process. -/
structure Fresh (frames : List ℕ) (m : Memory) : Prop where
  aligned : ∀ v ∈ frames, v % pgsize = 0
  nodup : frames.Nodup
  unmapped : ∀ v ∈ frames, ∀ q, Present (m.pte q) → pteAddr (m.pte q) ≠ v

/-- One event. -/
def Step (m : Memory) (e : Event) (m' : Memory) : Prop :=
  match e with
  | .store va b => userStore va b m = some m'
  | .mprotect addr len => m' = (sysMprotect addr len m).2
  | .munprotect addr len => m' = (sysMunprotect addr len m).2
  | .sbrk n frames => Fresh frames m ∧ ∃ r, growproc n frames m = some (r, m')
  | .exec image => Image image ∧ m' = image
  | .others byte => m' = { m with byte := byte } ∧
      ∀ q, Present (m.pte q) → ∀ off < pgsize,
        byte (pteAddr (m.pte q) + off) = m.content q off
  | e => KernelStores (output m e) m m'

end OsProjects.Vm.User
