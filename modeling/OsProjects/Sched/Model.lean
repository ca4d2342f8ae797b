import Mathlib.Tactic
import OsProjects.Foundation.Run

/-!
# The multi-level feedback scheduler

`kernel/proc.c` of the scheduler project: the process table, `scheduler()`, and the calls through
which processes enter, leave and change the table.  Priority 3 is the highest level.

A critical section of `ptable.lock` is one event.  `scheduler()` keeps the lock from the moment a
process comes back from `swtch` until the next one is chosen or the pass over the table ends, so
its events are: a pass begins, the scan reaches the next eligible process and dispatches it, or
the scan reaches the end of the table.  A process that yields, sleeps or exits takes the lock,
changes its state and switches to the scheduler, which charges its budgets before anything else
happens.  Any number of CPUs may be in such phases.

An array index outside the array is undefined behaviour, a `Fault`; `int` counters are integers.
-/

namespace OsProjects.Sched

/-- `NPROC`, the slots of the process table. -/
def nproc : ℕ := 64

/-- A slot of `ptable.proc`. -/
abbrev Slot := Fin nproc

instance : NeZero nproc := ⟨by decide⟩

/-- `enum procstate`. -/
inductive ProcState
  | unused
  | embryo
  | sleeping
  | runnable
  | running
  | zombie
  deriving DecidableEq

/-- A sleep channel: the address of a process, or another kernel address. -/
inductive Chan
  | proc (p : Slot)
  | other (addr : ℕ)
  deriving DecidableEq

/-- The part of `struct proc` the scheduler and its callers read or write. -/
structure Proc where
  state : ProcState
  pid : ℕ
  parent : Option Slot
  chan : Chan
  killed : Bool
  waitTicks : ℤ
  ticks : ℤ → ℤ
  priority : ℤ
  tickRemain : ℤ
  sliceRemain : ℤ

/-- A slot of the zero-initialised table. -/
def Proc.zero : Proc := ⟨.unused, 0, none, .other 0, false, 0, fun _ => 0, 0, 0, 0⟩

/-- What ends a step without a next state. -/
inductive Fault
  /-- an array index out of bounds -/
  | outOfBounds
  /-- the event cannot happen in this state -/
  | disabled
  deriving DecidableEq

/-- Reading entry `i` of a constant array. -/
def index (a : List ℤ) (i : ℤ) : Except Fault ℤ :=
  if 0 ≤ i ∧ i < a.length then .ok (a.getD i.toNat 0) else .error .outOfBounds

/-- `time_slice`, the ticks of a turn at each level. -/
def timeSlice : List ℤ := [64, 4, 2, 1]

/-- `slices`, the ticks after which a process leaves each level. -/
def slices : List ℤ := [8000000, 32, 16, 8]

/-- `ptable.proc`. -/
abbrev Table := Slot → Proc

/-- What a CPU is doing: outside a pass, at a position of the scan, or running a process. -/
inductive Cpu
  | idle
  | scan (i : ℕ)
  | running (p : Slot)
  deriving DecidableEq

/-- The kernel state; `locked` is `ptable.lock`, held while some CPU scans. -/
structure System where
  table : Table
  nextpid : ℕ
  cpu : ℕ → Cpu
  locked : Bool

/-- The slots of the table in scan order. -/
def slots : List Slot := List.finRange nproc

/-! ### `scheduler()` -/

/-- `getheight`: the highest priority of a RUNNABLE process, at least `0`. -/
def getheight (t : Table) : ℤ :=
  slots.foldl
    (fun max p => if (t p).state = .runnable ∧ (t p).priority > max then (t p).priority else max) 0

/-- The scan stops at a RUNNABLE process of the highest level. -/
def Eligible (t : Table) (p : Slot) : Prop :=
  (t p).state = .runnable ∧ (t p).priority = getheight t

instance (t : Table) (p : Slot) : Decidable (Eligible t p) :=
  inferInstanceAs (Decidable (_ ∧ _))

/-- The slot at which a scan standing at position `i` dispatches in this pass. -/
def nextEligible (t : Table) (i : ℕ) : Option Slot :=
  slots.find? (fun p => decide (i ≤ p.val ∧ Eligible t p))

/-- `p->tick_remain -= 1; p->wait_ticks = 0; p->ticks[p->priority] += 1; p->slice_remain -= 1;` -/
def charge (p : Proc) : Except Fault Proc :=
  if 0 ≤ p.priority ∧ p.priority < 4 then
    .ok { p with
      tickRemain := p.tickRemain - 1
      waitTicks := 0
      ticks := fun i => if i = p.priority then p.ticks i + 1 else p.ticks i
      sliceRemain := p.sliceRemain - 1 }
  else .error .outOfBounds

/-- The body of the escalate loop for the process `pp`, with `p` the dispatched one. -/
def age (p pp : Proc) : Except Fault Proc :=
  if pp.state ≠ .runnable then .ok pp
  else do
    let pp := { pp with waitTicks := pp.waitTicks + 1 }
    let ts ← index timeSlice pp.priority
    if pp.waitTicks = 10 * ts ∧ pp.priority < 3 then
      let slice ← index slices p.priority
      let tick ← index timeSlice p.priority
      pure { pp with
        priority := pp.priority + 1, waitTicks := 0, sliceRemain := slice, tickRemain := tick }
    else pure pp

/-- The escalate loop: `for (pp = ptable.proc; pp != p && pp < &ptable.proc[NPROC]; pp++)`. -/
def escalate (p : Slot) (t : Table) : Except Fault Table :=
  (slots.takeWhile (· ≠ p)).foldlM
    (fun t pp => do pure (Function.update t pp (← age (t p) (t pp)))) t

/-- What `scheduler()` does with the process it has chosen, up to `swtch`. -/
def dispatch (p : Slot) (t : Table) : Except Fault Table := do
  let t := Function.update t p (← charge (t p))
  let t ← escalate p t
  pure (Function.update t p { t p with state := .running })

/-- What `scheduler()` does with the budgets of a process that comes back from `swtch`: relegation,
another tick of the same turn, or the end of the turn.  The flag says that the scan stays at the
process (`p--`). -/
def settle (p : Proc) : Except Fault (Proc × Bool) :=
  if p.sliceRemain = 0 then do
    let priority := p.priority - 1
    let tick ← index timeSlice priority
    let slice ← index slices priority
    pure ({ p with priority := priority, tickRemain := tick, sliceRemain := slice }, false)
  else if p.tickRemain ≠ 0 then .ok (p, true)
  else do
    let tick ← index timeSlice p.priority
    pure ({ p with tickRemain := tick }, false)

/-! ### The other functions on the table -/

/-- `allocproc`, on the slot it found. -/
def allocproc (pid : ℕ) (p : Proc) : Proc :=
  { p with
    state := .embryo, pid := pid, priority := 3, tickRemain := timeSlice.getD 3 0, waitTicks := 0,
    ticks := fun _ => 0, sliceRemain := 8 }

/-- `wakeup1`. -/
def wakeup1 (chan : Chan) (t : Table) : Table := fun p =>
  if (t p).state = .sleeping ∧ (t p).chan = chan then { t p with state := .runnable } else t p

/-- `kill`, on the process with the given pid. -/
def killProc (p : Proc) : Proc :=
  { p with killed := true, state := if p.state = .sleeping then .runnable else p.state }

/-- `boostproc`, on the calling process. -/
def boostproc (p : Proc) : Except Fault Proc :=
  if p.priority ≠ 3 then do
    let slice ← index slices (p.priority + 1)
    let tick ← index timeSlice (p.priority + 1)
    pure { p with
      priority := p.priority + 1, waitTicks := 0, sliceRemain := slice, tickRemain := tick }
  else .ok p

/-- A row of the `struct pstat` that `getpinfo` fills in. -/
structure PStat where
  inuse : Bool
  pid : ℕ
  priority : ℤ
  state : ProcState
  ticks : ℤ → ℤ
  waitTicks : ℤ → ℤ

/-- `getpinfo`, on one slot: the wait ticks are stored at the level of the process. -/
def getpinfo (p : Proc) : Except Fault PStat :=
  if 0 ≤ p.priority ∧ p.priority < 4 then
    .ok {
      inuse := p.state ≠ .unused, pid := p.pid, priority := p.priority, state := p.state
      ticks := p.ticks, waitTicks := fun j => if j = p.priority then p.waitTicks else 0 }
  else .error .outOfBounds

/-- The effect of `wait` on the zombie child it found. -/
def reap (p : Proc) : Proc :=
  { p with state := .unused, pid := 0, parent := none, killed := false }

/-- `initproc`: `userinit` finds the whole table unused. -/
def initproc : Slot := 0

/-- One round of the loop in `exit` that passes the children of `p` to `init`. -/
def reparent (p : Slot) (t : Table) (q : Slot) : Table :=
  if (t q).parent = some p then
    let t := Function.update t q { t q with parent := some initproc }
    if (t q).state = .zombie then wakeup1 (.proc initproc) t else t
  else t

/-- `exit` under the lock, up to `sched()`: the parent is woken, the children change parent. -/
def exitProc (p : Slot) (t : Table) : Table :=
  let t := match (t p).parent with
    | some q => wakeup1 (.proc q) t
    | none => t
  let t := slots.foldl (reparent p) t
  Function.update t p { t p with state := .zombie }

/-! ### Events -/

/-- The events of the system; `c` is the CPU they happen on.  `fork` is the allocation of the child,
which becomes RUNNABLE (`forkDone`) or UNUSED again (`forkFail`) later and without the lock. -/
inductive Event
  | beginPass (c : ℕ)
  | dispatch (c : ℕ) (p : Slot)
  | endPass (c : ℕ)
  | yield (c : ℕ)
  | sleep (c : ℕ) (chan : Chan)
  | exit (c : ℕ)
  | wait (c : ℕ) (child : Slot)
  | fork (c : ℕ) (child : Slot)
  | forkDone (child : Slot)
  | forkFail (child : Slot)
  | boost (c : ℕ)
  | wakeup (chan : Chan)
  | kill (pid : ℕ)
  deriving DecidableEq

/-- The process that runs on CPU `c`. -/
def System.current (s : System) (c : ℕ) : Except Fault Slot :=
  match s.cpu c with
  | .running p => .ok p
  | _ => .error .disabled

/-- `sched()` from process `p` on CPU `c`, whose table entries have been changed to `t`. -/
def System.sched (s : System) (c : ℕ) (p : Slot) (t : Table) : Except Fault System := do
  let (q, stay) ← settle (t p)
  pure { s with
    table := Function.update t p q
    cpu := Function.update s.cpu c (.scan (if stay then p.val else p.val + 1))
    locked := true }

/-- An event that needs a condition to hold. -/
def guard (b : Prop) [Decidable b] : Except Fault Unit :=
  if b then .ok () else .error .disabled

/-- One event. -/
def step (s : System) : Event → Except Fault System
  | .beginPass c => do
      guard (s.cpu c = .idle ∧ s.locked = false)
      pure { s with cpu := Function.update s.cpu c (.scan 0), locked := true }
  | .dispatch c p =>
      match s.cpu c with
      | .scan i => do
          guard (nextEligible s.table i = some p)
          let t ← dispatch p s.table
          pure { s with
            table := t, cpu := Function.update s.cpu c (.running p), locked := false }
      | _ => .error .disabled
  | .endPass c =>
      match s.cpu c with
      | .scan i => do
          guard (nextEligible s.table i = none)
          pure { s with cpu := Function.update s.cpu c .idle, locked := false }
      | _ => .error .disabled
  | .yield c => do
      let p ← s.current c
      guard (s.locked = false)
      s.sched c p (Function.update s.table p { s.table p with state := .runnable })
  | .sleep c chan => do
      let p ← s.current c
      guard (s.locked = false)
      s.sched c p (Function.update s.table p { s.table p with state := .sleeping, chan := chan })
  | .exit c => do
      let p ← s.current c
      guard (s.locked = false ∧ p ≠ initproc)
      s.sched c p (exitProc p s.table)
  | .wait c child => do
      let p ← s.current c
      guard (s.locked = false ∧
        slots.find? (fun q => (s.table q).parent = some p ∧ (s.table q).state = .zombie) =
          some child)
      pure { s with table := Function.update s.table child (reap (s.table child)) }
  | .fork c child => do
      let p ← s.current c
      guard (s.locked = false ∧
        slots.find? (fun q => (s.table q).state = .unused) = some child)
      pure { s with
        table := Function.update s.table child
          { allocproc s.nextpid (s.table child) with parent := some p }
        nextpid := s.nextpid + 1 }
  | .forkDone child => do
      guard ((s.table child).state = .embryo)
      pure { s with
        table := Function.update s.table child { s.table child with state := .runnable } }
  | .forkFail child => do
      guard ((s.table child).state = .embryo)
      pure { s with
        table := Function.update s.table child
          { s.table child with state := .unused, parent := none } }
  | .boost c => do
      let p ← s.current c
      pure { s with table := Function.update s.table p (← boostproc (s.table p)) }
  | .wakeup chan => do
      guard (s.locked = false)
      pure { s with table := wakeup1 chan s.table }
  | .kill pid =>
      match slots.find? (fun q => (s.table q).pid = pid) with
      | some p => do
          guard (s.locked = false)
          pure { s with table := Function.update s.table p (killProc (s.table p)) }
      | none => .error .disabled

/-- The kernel after `userinit`: process 1 is RUNNABLE in slot 0, and no CPU has begun a pass. -/
def booted : System where
  table := fun p => if p = initproc then { allocproc 1 .zero with state := .runnable } else .zero
  nextpid := 2
  cpu := fun _ => .idle
  locked := false

/-- `step` as a relation. -/
def Step (s : System) (e : Event) (t : System) : Prop := step s e = .ok t

/-- The states of the kernel from boot on. -/
def Reached (s : System) : Prop := Reachable (· = booted) Step s

end OsProjects.Sched
