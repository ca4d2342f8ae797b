import OsProjects.MapReduce.Bucket
import OsProjects.Foundation.Run

/-!
# The MapReduce library

`MR_Run` of `mapreduce.c`, its mapper and reducer threads and the calls the client's functions make.
The client is the environment: a Mapper may emit any pairs, a Combiner any pairs before and after it
asks its getter for values, and a Combiner or Reducer returns after its getter has returned `NULL`.

An event is one atomic step of one thread.  Calls that only touch the thread's own bucket are atomic
because no other thread looks at it; `MR_EmitToReducer` holds the semaphore of its partition; and
`pthread_create` has stored the thread id before the new thread looks it up.
-/

namespace OsProjects.MapReduce

/-- The arguments of `MR_Run` and the ids of the mapper threads. -/
structure Job (κ : Type) where
  argc : ℕ
  numMappers : ℕ
  numReducers : ℕ
  /-- `combine != NULL` -/
  combine : Bool
  partition : κ → ℕ
  tid : ℕ → ℕ
  mappers_pos : 1 ≤ numMappers
  reducers_pos : 1 ≤ numReducers
  partition_lt : ∀ k, partition k < numReducers
  tid_ne_zero : ∀ i, tid i ≠ 0
  tid_inj : ∀ i j, 1 ≤ i → i ≤ numMappers → 1 ≤ j → j ≤ numMappers → tid i = tid j → i = j

/-- A wrapper's loop over its bucket: between two calls with `head` next, or in the call made for
the node `head`, whose getter has returned `NULL` or not. -/
inductive Visit (κ : Type)
  | between (head : ℕ)
  | inside (head : ℕ) (key : κ) (sawNull : Bool)

/-- `mapper_wrapper`: before the first statement, before a test of `loca < argument_num`, in a call
of the Mapper, in the loop over the bucket, or returned. -/
inductive MapperPc (κ : Type)
  | idle
  | created
  | files (loca : ℕ)
  | mapping (loca : ℕ)
  | combining (v : Visit κ)
  | exited

/-- `reduce_wrapper`. -/
inductive ReducerPc (κ : Type)
  | idle
  | created
  | reducing (v : Visit κ)
  | exited

/-- The next `pthread_create` or `pthread_join` of `MR_Run`. -/
inductive MainPc
  | createMapper (i : ℕ)
  | joinMapper (i : ℕ)
  | createReducer (j : ℕ)
  | joinReducer (j : ℕ)
  | returned
  deriving DecidableEq

/-- The globals of `mapreduce.c` and the positions of the threads. -/
structure State (κ ν : Type) where
  curMapTid : ℕ → ℕ
  headerOfCurMapper : ℕ → Bucket κ ν
  headerOfReduce : ℕ → Bucket κ ν
  lockerForWrapper : ℕ
  main : MainPc
  mapper : ℕ → MapperPc κ
  reducer : ℕ → ReducerPc κ

/-- One step of one thread, with the arguments and results of the client's calls. -/
inductive Event (κ ν : Type)
  | main
  | mapperEnter (i : ℕ)
  | map (i file : ℕ)
  | emitToCombiner (i : ℕ) (key : κ) (value : ν)
  | mapReturn (i : ℕ)
  | mapDone (i : ℕ)
  | combine (i : ℕ) (key : κ)
  | getForCombine (i : ℕ) (key : κ) (result : Option ν)
  | emitToReducer (i : ℕ) (key : κ) (value : ν)
  | combineReturn (i : ℕ)
  | combineDone (i : ℕ)
  | reducerEnter (j : ℕ)
  | reduce (j : ℕ) (key : κ)
  | getForReducer (j : ℕ) (key : κ) (result : Option ν)
  | reduceReturn (j : ℕ)
  | reduceDone (j : ℕ)
  deriving DecidableEq

/-- The fields as `MR_Run` has set them before the first `pthread_create`. -/
def init (κ ν : Type) : State κ ν where
  curMapTid := fun _ => 0
  headerOfCurMapper := fun _ => Bucket.empty
  headerOfReduce := fun _ => Bucket.empty
  lockerForWrapper := 1
  main := .createMapper 1
  mapper := fun _ => .idle
  reducer := fun _ => .idle

/-- `while (cur_map_tid[index] != pid && index <= number_of_mappers) index++;` -/
def tidLoop (n : ℕ) (cur : ℕ → ℕ) (pid : ℕ) : ℕ → ℕ → ℕ
  | 0, index => index
  | fuel + 1, index =>
      if cur index ≠ pid ∧ index ≤ n then tidLoop n cur pid fuel (index + 1) else index

/-- `map_thread_id`; `none` is the result `-1`, which the callers do not test for. -/
def mapThreadId (n : ℕ) (cur : ℕ → ℕ) (pid check : ℕ) : Option ℕ :=
  let index := if check ≠ 0 then tidLoop n cur pid (n + 2) 0 else 0
  if index > n then none else some index

variable {κ ν : Type}

/-- `map_thread_id((97 % number_of_mappers) + 1)` called by mapper thread `i`. -/
def ownIndex (job : Job κ) (s : State κ ν) (i : ℕ) : Option ℕ :=
  mapThreadId job.numMappers s.curMapTid (job.tid i) (97 % job.numMappers + 1)

/-- The next step of the main thread. -/
def mainStep (job : Job κ) (s : State κ ν) : Option (State κ ν) :=
  match s.main with
  | .createMapper i =>
      if s.lockerForWrapper = 0 then none
      else some { s with
        lockerForWrapper := s.lockerForWrapper - 1
        curMapTid := Function.update s.curMapTid i (job.tid i)
        mapper := Function.update s.mapper i .created
        main := if i = job.numMappers then .joinMapper 1 else .createMapper (i + 1) }
  | .joinMapper i =>
      match s.mapper i with
      | .exited => some { s with
          main := if i = job.numMappers then .createReducer 0 else .joinMapper (i + 1) }
      | _ => none
  | .createReducer j =>
      if s.lockerForWrapper = 0 then none
      else some { s with
        lockerForWrapper := s.lockerForWrapper - 1
        reducer := Function.update s.reducer j .created
        main := if j + 1 = job.numReducers then .joinReducer 0 else .createReducer (j + 1) }
  | .joinReducer j =>
      match s.reducer j with
      | .exited => some { s with
          main := if j + 1 = job.numReducers then .returned else .joinReducer (j + 1) }
      | _ => none
  | .returned => none

/-- Mapper thread `i` goes on at `pc`. -/
def State.setMapper (s : State κ ν) (i : ℕ) (pc : MapperPc κ) : State κ ν :=
  { s with mapper := Function.update s.mapper i pc }

/-- Reducer thread `j` goes on at `pc`. -/
def State.setReducer (s : State κ ν) (j : ℕ) (pc : ReducerPc κ) : State κ ν :=
  { s with reducer := Function.update s.reducer j pc }

/-- A write to the list of mapper `i`. -/
def State.setMapBucket (s : State κ ν) (i : ℕ) (b : Bucket κ ν) : State κ ν :=
  { s with headerOfCurMapper := Function.update s.headerOfCurMapper i b }

/-- A write to the list of partition `j`. -/
def State.setReduceBucket (s : State κ ν) (j : ℕ) (b : Bucket κ ν) : State κ ν :=
  { s with headerOfReduce := Function.update s.headerOfReduce j b }

/-- A thread is in a call of the Mapper or of the Combiner. -/
def MapperPc.inClient : MapperPc κ → Bool
  | .mapping _ => true
  | .combining (.inside _ _ _) => true
  | _ => false

variable [DecidableEq κ] [DecidableEq ν]

/-- `MR_EmitToReducer` under the semaphore of the partition. -/
def emitToReducer (job : Job κ) (s : State κ ν) (key : κ) (value : ν) : Option (State κ ν) := do
  let index := job.partition key
  let b ← llInsert key value (s.headerOfReduce index)
  some (s.setReduceBucket index b)

/-- One step of the mapper threads, of the reducer threads or of `MR_Run` itself. -/
def step (job : Job κ) (s : State κ ν) : Event κ ν → Option (State κ ν)
  | .main => mainStep job s
  | .mapperEnter i =>
      match s.mapper i with
      | .created =>
        some ({ s with lockerForWrapper := s.lockerForWrapper + 1 }.setMapper i (.files i))
      | _ => none
  | .map i file =>
      match s.mapper i with
      | .files loca =>
          if loca < job.argc ∧ file = loca then some (s.setMapper i (.mapping loca)) else none
      | _ => none
  | .emitToCombiner i key value =>
      match s.mapper i with
      | .mapping _ => do
          let index ← ownIndex job s i
          let b ← llInsert key value (s.headerOfCurMapper index)
          some (s.setMapBucket index b)
      | _ => none
  | .mapReturn i =>
      match s.mapper i with
      | .mapping loca => some (s.setMapper i (.files (loca + job.numMappers)))
      | _ => none
  | .mapDone i =>
      match s.mapper i with
      | .files loca =>
          if loca < job.argc then none
          else if job.combine then
            some (s.setMapper i (.combining (.between ((s.headerOfCurMapper i).next hdr))))
          else some (s.setMapper i .exited)
      | _ => none
  | .combine i key =>
      match s.mapper i with
      | .combining (.between head) =>
          if i < job.argc ∧ head ≠ 0 ∧ (s.headerOfCurMapper i).key head = some key then
            some (s.setMapper i (.combining (.inside head key false)))
          else none
      | _ => none
  | .getForCombine i key result =>
      match s.mapper i with
      | .combining (.inside head key' false) => do
          let index ← ownIndex job s i
          let (val, b) ← getNext key' (s.headerOfCurMapper index)
          if key = key' ∧ result = val then
            some ((s.setMapBucket index b).setMapper i (.combining (.inside head key' val.isNone)))
          else none
      | _ => none
  | .emitToReducer i key value =>
      if (s.mapper i).inClient then emitToReducer job s key value else none
  | .combineReturn i =>
      match s.mapper i with
      | .combining (.inside head _ true) =>
          some (s.setMapper i (.combining (.between ((s.headerOfCurMapper i).next head))))
      | _ => none
  | .combineDone i =>
      match s.mapper i with
      | .combining (.between head) =>
          if i < job.argc ∧ head ≠ 0 then none else some (s.setMapper i .exited)
      | _ => none
  | .reducerEnter j =>
      match s.reducer j with
      | .created => some ({ s with lockerForWrapper := s.lockerForWrapper + 1 }.setReducer j
          (.reducing (.between ((s.headerOfReduce j).next hdr))))
      | _ => none
  | .reduce j key =>
      match s.reducer j with
      | .reducing (.between head) =>
          if head ≠ 0 ∧ (s.headerOfReduce j).key head = some key then
            some (s.setReducer j (.reducing (.inside head key false)))
          else none
      | _ => none
  | .getForReducer j key result =>
      match s.reducer j with
      | .reducing (.inside head key' false) => do
          let (val, b) ← getNext key' (s.headerOfReduce j)
          if key = key' ∧ result = val then
            some ((s.setReduceBucket j b).setReducer j (.reducing (.inside head key' val.isNone)))
          else none
      | _ => none
  | .reduceReturn j =>
      match s.reducer j with
      | .reducing (.inside head _ true) =>
          some (s.setReducer j (.reducing (.between ((s.headerOfReduce j).next head))))
      | _ => none
  | .reduceDone j =>
      match s.reducer j with
      | .reducing (.between head) => if head ≠ 0 then none else some (s.setReducer j .exited)
      | _ => none

/-- The steps of `MR_Run` for a job. -/
def Step (job : Job κ) (s : State κ ν) (e : Event κ ν) (t : State κ ν) : Prop :=
  step job s e = some t


end OsProjects.MapReduce
