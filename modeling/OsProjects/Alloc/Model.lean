import Mathlib.Tactic
import OsProjects.Foundation.Run

/-!
# The logging page allocators of the two memory projects

`kernel/kalloc.c` of part_a and of part_b.  Both keep a list of free frames, threaded through the
first word of each frame, and an array `alloc_list` of the frames handed out and not yet freed.
part_a frees every second page at boot and allocates from the head of the list; part_b frees every
page and allocates the cell at a pseudo-random position.

Pointers are 32-bit values, `NULL` is `0`, and `next a` is the word stored at address `a`.  A call
that would panic, divide by zero, follow a null pointer, write past `alloc_list` or loop for ever
ends in a `Fault`.  The spin lock is the atomicity of a call.
-/

namespace OsProjects.Alloc

/-- `PGSIZE`, the bytes of a page. -/
def pgsize : ℕ := 4096

/-- `PHYSTOP`, the end of the physical memory used as free pool. -/
def phystop : ℕ := 0x1000000

/-- The number of entries of `alloc_list`. -/
def allocCap : ℕ := 1000000

/-- The number of 32-bit pointers; a walk with more steps than this is in a cycle. -/
def pointers : ℕ := 2 ^ 32

/-- `PGROUNDUP`, with the wrap-around of 32-bit unsigned addition. -/
def pgroundup (sz : ℕ) : ℕ := (sz + pgsize - 1) % pointers / pgsize * pgsize

/-- The ways a call can go wrong. -/
inductive Fault
  | panic (msg : String)
  | divideByZero
  | nullDeref
  | outOfBounds
  | diverges
  deriving DecidableEq

/-- The allocator's globals and the words of physical memory.  `rand` is `state.a` of part_b's
`rand.c`; part_a has no generator and never reads it. -/
structure Kmem where
  freelist : ℕ
  next : ℕ → ℕ
  allocList : ℕ → ℕ
  allocSize : ℕ
  rand : BitVec 32

/-- The globals before `kinit`, in a memory with arbitrary contents. -/
def Kmem.boot (mem : ℕ → ℕ) : Kmem := ⟨0, mem, fun _ => 0, 0, 1⟩

/-- The entries of `alloc_list` below `alloc_size`. -/
def Kmem.allocated (s : Kmem) : List ℕ := (List.range s.allocSize).map s.allocList

/-- `memset(v, 1, PGSIZE)`, as seen by word reads. -/
def memsetJunk (v : ℕ) (next : ℕ → ℕ) : ℕ → ℕ :=
  fun a => if v ≤ a ∧ a < v + pgsize then 0x01010101 else next a

/-- `for (j = i + 1; j < alloc_size; j++) alloc_list[j - 1] = alloc_list[j];` -/
def shiftDown (a : ℕ → ℕ) (i size : ℕ) : ℕ → ℕ :=
  (List.range' (i + 1) (size - (i + 1))).foldl (fun a j => Function.update a (j - 1) (a j)) a

/-- The removal loop of `kfree`: the first entry equal to `r` is closed up, and the loop stops. -/
def unlogFrame (r : ℕ) (s : Kmem) : Kmem :=
  match (List.range s.allocSize).find? (fun i => s.allocList i == r) with
  | some i =>
      { s with allocList := shiftDown s.allocList i s.allocSize, allocSize := s.allocSize - 1 }
  | none => s

/-- `kfree`; `end_` is the linker symbol `end`. -/
def kfree (end_ v : ℕ) (s : Kmem) : Except Fault Kmem :=
  if v % pgsize ≠ 0 ∨ v < end_ ∨ phystop ≤ v then
    .error (.panic "kfree")
  else
    .ok (unlogFrame v
      { s with next := Function.update (memsetJunk v s.next) v s.freelist, freelist := v })

/-- The pages `kinit` passes to `kfree`: `p += stride` from `PGROUNDUP(end)` while
`p + PGSIZE <= PHYSTOP`.  No loop gets further than `PHYSTOP / PGSIZE + 1` pages. -/
def kinitPages (end_ stride : ℕ) : List ℕ :=
  (List.range' (pgroundup end_) (phystop / pgsize + 1) stride).takeWhile
    (fun p => (p + pgsize) % pointers ≤ phystop)

/-- `kinit`, whose step is `PGSIZE` in part_b and `2 * PGSIZE` in part_a. -/
def kinit (end_ stride : ℕ) (s : Kmem) : Except Fault Kmem :=
  (kinitPages end_ stride).foldlM (fun s p => kfree end_ p s) s

/-- `alloc_list[alloc_size] = r; alloc_size += 1;` -/
def logFrame (r : ℕ) (s : Kmem) : Except Fault Kmem :=
  if s.allocSize < allocCap then
    .ok { s with
      allocList := Function.update s.allocList s.allocSize r, allocSize := s.allocSize + 1 }
  else .error .outOfBounds

/-- part_a's `kalloc`: the head of the free list, or `NULL`. -/
def PartA.kalloc (s : Kmem) : Except Fault (ℕ × Kmem) :=
  let r := s.freelist
  if r ≠ 0 then do
    let s ← logFrame r { s with freelist := s.next r }
    pure (r, s)
  else pure (0, s)

/-- `xv6_rand`: the returned value is also the new state. -/
def xv6Rand (a : BitVec 32) : BitVec 32 :=
  let x := a
  let x := x ^^^ (x <<< 13)
  let x := x ^^^ (x >>> 17)
  let x := x ^^^ (x <<< 5)
  x % (2147483647 + 1)

/-- `while (r) { r = r->next; freesize++; }` -/
def countFree (next : ℕ → ℕ) : ℕ → ℕ → Except Fault ℕ
  | 0, _ => .error .diverges
  | fuel + 1, r => if r = 0 then .ok 0 else (countFree next fuel (next r)).map (· + 1)

/-- `for (i = 0; i < y; i++) r = r->next;` -/
def advance (next : ℕ → ℕ) : ℕ → ℕ → Except Fault ℕ
  | 0, r => .ok r
  | y + 1, r => if r = 0 then .error .nullDeref else advance next y (next r)

/-- `while (rr != NULL) { if (rr->next == r) break; rr = rr->next; }` -/
def findPred (next : ℕ → ℕ) (r : ℕ) : ℕ → ℕ → Except Fault ℕ
  | 0, _ => .error .diverges
  | fuel + 1, rr =>
      if rr = 0 then .ok 0
      else if next rr = r then .ok rr
      else findPred next r fuel (next rr)

/-- Taking `r` out of the free list: the head is popped, any other cell is unlinked from its
predecessor. -/
def takeOut (r : ℕ) (s : Kmem) : Except Fault Kmem :=
  if s.freelist = r then .ok { s with freelist := s.next r }
  else do
    let rr ← findPred s.next r pointers s.freelist
    if rr = 0 then .error .nullDeref
    else pure { s with next := Function.update s.next rr (s.next r) }

/-- part_b's `kalloc`: the cell at position `xv6_rand() % freesize`. -/
def PartB.kalloc (s : Kmem) : Except Fault (ℕ × Kmem) := do
  let x := xv6Rand s.rand
  let s := { s with rand := x }
  let freesize ← countFree s.next pointers s.freelist
  if freesize = 0 then throw .divideByZero
  let y := x.toInt.tmod freesize
  let r ← advance s.next y.toNat s.freelist
  if r ≠ 0 then
    let s ← logFrame r s
    let s ← takeOut r s
    pure (r, s)
  else pure (0, s)

/-- What differs between the two parts: the boot stride, `kalloc`, and when it may be called. -/
structure Part where
  stride : ℕ
  kalloc : Kmem → Except Fault (ℕ × Kmem)
  callable : Kmem → Prop

def partA : Part := ⟨2 * pgsize, PartA.kalloc, fun _ => True⟩

/-- part_b's `kalloc` is only called while some frame is free. -/
def partB : Part := ⟨pgsize, PartB.kalloc, fun s => s.freelist ≠ 0⟩

/-- What happens to the allocator after boot: a call that returned `r`, a frame given back, a new
seed, and the owners of allocated frames writing into them. -/
inductive Event
  | kalloc (r : ℕ)
  | kfree (v : ℕ)
  | srand (seed : BitVec 32)
  | write (next : ℕ → ℕ)

/-- `a` lies in an allocated frame. -/
def Kmem.Owned (s : Kmem) (a : ℕ) : Prop := ∃ v ∈ s.allocated, v ≤ a ∧ a < v + pgsize

/-- One event; `kfree` is only given a frame that is allocated at the time. -/
def Step (P : Part) (end_ : ℕ) (s : Kmem) : Event → Kmem → Prop
  | .kalloc r, t => P.callable s ∧ P.kalloc s = .ok (r, t)
  | .kfree v, t => v ∈ s.allocated ∧ kfree end_ v s = .ok t
  | .srand seed, t => t = { s with rand := seed }
  | .write next, t => (∀ a, ¬ s.Owned a → next a = s.next a) ∧ t = { s with next := next }

end OsProjects.Alloc
