import OsProjects.MapReduce.Ledger

/-!
# What a step does to one thread

`step_mapper` and `step_reducer` say once what a step can do to a mapper thread and its bucket and
to a reducer thread and its bucket; `step_main` does the same for the main thread.  They rest on
`map_thread_id` finding the caller's own index, which holds because the array has the ids of the
threads created so far and zeros behind them (`ownIndex_eq`).
-/

namespace OsProjects.MapReduce

variable {κ ν : Type}

/-- The mapper thread that takes the step. -/
def Event.mapper? : Event κ ν → Option ℕ
  | .mapperEnter i | .map i _ | .emitToCombiner i _ _ | .mapReturn i | .mapDone i | .combine i _
  | .getForCombine i _ _ | .emitToReducer i _ _ | .combineReturn i | .combineDone i => some i
  | _ => none

/-- The reducer thread that takes the step. -/
def Event.reducer? : Event κ ν → Option ℕ
  | .reducerEnter j | .reduce j _ | .getForReducer j _ _ | .reduceReturn j | .reduceDone j => some j
  | _ => none

/-- The first statement of a thread, which posts `locker_for_wrapper`. -/
def Event.isEnter : Event κ ν → Bool
  | .mapperEnter _ | .reducerEnter _ => true
  | _ => false

/-! ### Thread ids -/

/-- The array holds the ids of the threads created so far, which are numbered `1` to `n`. -/
structure Ids (job : Job κ) (s : State κ ν) : Prop where
  range : ∀ i, s.mapper i ≠ .idle → 1 ≤ i ∧ i ≤ job.numMappers
  created : ∀ i, s.mapper i ≠ .idle → s.curMapTid i = job.tid i
  idle : ∀ i, s.mapper i = .idle → s.curMapTid i = 0

theorem tidLoop_eq {n : ℕ} {cur : ℕ → ℕ} {pid i : ℕ} (hi : i ≤ n) (hcur : cur i = pid)
    (hlt : ∀ j < i, cur j ≠ pid) {j : ℕ} (fuel : ℕ) (hj : j ≤ i) (hfuel : i < j + fuel) :
    tidLoop n cur pid fuel j = i := by
  induction fuel generalizing j with
  | zero => omega
  | succ fuel ih =>
    rcases Nat.eq_or_lt_of_le hj with rfl | hji
    · simp [tidLoop, hcur]
    · have hcond : cur j ≠ pid ∧ j ≤ n := ⟨hlt j hji, by omega⟩
      rw [tidLoop, if_pos hcond]
      exact ih hji (by omega)

/-- A mapper thread finds its own index. -/
theorem ownIndex_eq {job : Job κ} {s : State κ ν} (h : Ids job s) {i : ℕ}
    (hi : s.mapper i ≠ .idle) :
    ownIndex job s i = some i := by
  obtain ⟨h1, hn⟩ := h.range i hi
  have hlt : ∀ j < i, s.curMapTid j ≠ job.tid i := by
    intro j hj heq
    by_cases hidle : s.mapper j = .idle
    · rw [h.idle j hidle] at heq
      exact job.tid_ne_zero i heq.symm
    · rw [h.created j hidle] at heq
      obtain ⟨hj1, hjn⟩ := h.range j hidle
      exact hj.ne (job.tid_inj j i hj1 hjn h1 hn heq)
  have hloop := tidLoop_eq hn (h.created i hi) hlt (j := 0) (job.numMappers + 2) (by omega)
    (by omega)
  simp [ownIndex, mapThreadId, hloop, hn]

/-! ### Phases -/

/-- All mapper threads have been created and have returned. -/
def MappersDone (job : Job κ) (s : State κ ν) : Prop :=
  (∀ i, s.mapper i ≠ .idle ↔ 1 ≤ i ∧ i ≤ job.numMappers) ∧ ∀ i, s.mapper i ≠ .idle →
  s.mapper i = .exited

/-- What `MR_Run` knows about its threads: which it has created and which it has joined. -/
def Phase (job : Job κ) (s : State κ ν) : Prop :=
  match s.main with
  | .createMapper m =>
      1 ≤ m ∧ m ≤ job.numMappers ∧ (∀ i, s.mapper i ≠ .idle ↔ 1 ≤ i ∧ i < m) ∧
        ∀ j, s.reducer j = .idle
  | .joinMapper m =>
      1 ≤ m ∧ m ≤ job.numMappers ∧ (∀ i, s.mapper i ≠ .idle ↔ 1 ≤ i ∧ i ≤ job.numMappers) ∧
        (∀ i, 1 ≤ i → i < m → s.mapper i = .exited) ∧ ∀ j, s.reducer j = .idle
  | .createReducer m =>
      m < job.numReducers ∧ MappersDone job s ∧ ∀ j, s.reducer j ≠ .idle ↔ j < m
  | .joinReducer m =>
      m < job.numReducers ∧ MappersDone job s ∧ (∀ j, s.reducer j ≠ .idle ↔ j < job.numReducers) ∧
        ∀ j < m, s.reducer j = .exited
  | .returned =>
      MappersDone job s ∧ (∀ j, s.reducer j ≠ .idle ↔ j < job.numReducers) ∧
        ∀ j < job.numReducers, s.reducer j = .exited

/-- While a mapper thread runs, no reducer thread has been created. -/
theorem Phase.reducer_idle {job : Job κ} {s : State κ ν} (h : Phase job s) {i : ℕ}
    (hi : s.mapper i ≠ .idle) (hne : s.mapper i ≠ .exited) (j : ℕ) : s.reducer j = .idle := by
  unfold Phase at h
  split at h
  · exact h.2.2.2 j
  · exact h.2.2.2.2 j
  · exact absurd (h.2.1.2 i hi) hne
  · exact absurd (h.2.1.2 i hi) hne
  · exact absurd (h.1.2 i hi) hne

section Main

variable {job : Job κ} {s t : State κ ν}

theorem ids_init (job : Job κ) : Ids job (init κ ν) := by
  constructor <;> simp [init]

theorem phase_init (job : Job κ) : Phase job (init κ ν) := by
  refine ⟨le_rfl, job.mappers_pos, fun i => ?_, fun j => rfl⟩
  simp only [init, ne_eq, not_true_eq_false, false_iff]
  omega

/-- The main thread's own steps. -/
theorem mainStep_keeps (hids : Ids job s) (hph : Phase job s) (h : mainStep job s = some t) :
    Ids job t ∧ Phase job t := by
  unfold Phase at hph
  unfold mainStep at h
  split at h <;> rename_i hmain <;> simp only [hmain] at hph
  · rename_i m
    split at h <;> simp only [Option.some.injEq, reduceCtorEq] at h
    subst h
    obtain ⟨h1, hn, hidle, hred⟩ := hph
    -- the new thread is the only one that is no longer idle
    have hnew : ∀ i, Function.update s.mapper m .created i ≠ .idle ↔ 1 ≤ i ∧ i < m + 1 := by
      intro i
      rcases eq_or_ne i m with rfl | hne
      · simp [h1]
      · rw [Function.update_of_ne hne, hidle i]
        omega
    refine ⟨⟨fun i hi => ?_, fun i hi => ?_, fun i hi => ?_⟩, ?_⟩
    · have := (hnew i).1 hi
      omega
    · rcases eq_or_ne i m with rfl | hne
      · simp
      · simpa [hne] using hids.created i (by simpa [hne] using hi)
    · have hne : i ≠ m := by rintro rfl; simp at hi
      simpa [hne] using hids.idle i (by simpa [hne] using hi)
    · unfold Phase
      split <;> rename_i hpc <;> simp only at hpc <;> split at hpc <;> cases hpc
      · exact ⟨by omega, by omega, hnew, hred⟩
      · rename_i hmn
        subst hmn
        exact ⟨le_rfl, job.mappers_pos, fun i => (hnew i).trans (by omega), by omega, hred⟩
  · rename_i m
    split at h <;> simp only [Option.some.injEq, reduceCtorEq] at h
    rename_i hex
    subst h
    obtain ⟨h1, hn, hidle, hexited, hred⟩ := hph
    have hex' : ∀ i, 1 ≤ i → i < m + 1 → s.mapper i = .exited := fun i hi hlt => by
      rcases eq_or_ne i m with rfl | hne
      · exact hex
      · exact hexited i hi (by omega)
    refine ⟨⟨hids.range, hids.created, hids.idle⟩, ?_⟩
    unfold Phase
    split <;> rename_i hpc <;> simp only at hpc <;> split at hpc <;> cases hpc
    · exact ⟨by omega, by omega, hidle, hex', hred⟩
    · rename_i hmn
      subst hmn
      refine ⟨job.reducers_pos, ⟨hidle, fun i hi => ?_⟩, fun j => by simp [hred j]⟩
      obtain ⟨hi1, hin⟩ := (hidle i).1 hi
      exact hex' i hi1 (by omega)
  · rename_i m
    split at h <;> simp only [Option.some.injEq, reduceCtorEq] at h
    subst h
    obtain ⟨hlt, hdone, hidle⟩ := hph
    have hnew : ∀ j, Function.update s.reducer m .created j ≠ .idle ↔ j < m + 1 := by
      intro j
      rcases eq_or_ne j m with rfl | hne
      · simp
      · rw [Function.update_of_ne hne, hidle j]
        omega
    refine ⟨⟨hids.range, hids.created, hids.idle⟩, ?_⟩
    unfold Phase
    split <;> rename_i hpc <;> simp only at hpc <;> split at hpc <;> cases hpc
    · exact ⟨by omega, hdone, hnew⟩
    · rename_i hmn
      exact ⟨job.reducers_pos, hdone, fun j => (hnew j).trans (by omega), by omega⟩
  · rename_i m
    split at h <;> simp only [Option.some.injEq, reduceCtorEq] at h
    rename_i hex
    subst h
    obtain ⟨hlt, hdone, hidle, hexited⟩ := hph
    have hex' : ∀ j < m + 1, s.reducer j = .exited := fun j hj => by
      rcases eq_or_ne j m with rfl | hne
      · exact hex
      · exact hexited j (by omega)
    refine ⟨⟨hids.range, hids.created, hids.idle⟩, ?_⟩
    unfold Phase
    split <;> rename_i hpc <;> simp only at hpc <;> split at hpc <;> cases hpc
    · exact ⟨by omega, hdone, hidle, hex'⟩
    · exact ⟨hdone, hidle, fun j hj => hex' j (by omega)⟩
  · simp at h

end Main

/-! ### Changes -/

variable [DecidableEq κ]

/-- What an event `e` can do to mapper thread `i` at `pc` and to its bucket. -/
inductive MapperChange (job : Job κ) (i : ℕ) (e : Event κ ν) :
    MapperPc κ → Bucket κ ν → MapperPc κ → Bucket κ ν → Prop
  | frame {pc b} (he : e.mapper? ≠ some i) : MapperChange job i e pc b pc b
  | create {b} (he : e = .main) (h1 : 1 ≤ i) (hn : i ≤ job.numMappers) :
      MapperChange job i e .idle b .created b
  | enter {b} (he : e = .mapperEnter i) : MapperChange job i e .created b (.files i) b
  | map {loca b} (he : e = .map i loca) (h : loca < job.argc) :
      MapperChange job i e (.files loca) b (.mapping loca) b
  | emit {loca b b' k v} (he : e = .emitToCombiner i k v) (h : llInsert k v b = some b') :
      MapperChange job i e (.mapping loca) b (.mapping loca) b'
  | mapReturn {loca b} (he : e = .mapReturn i) :
      MapperChange job i e (.mapping loca) b (.files (loca + job.numMappers)) b
  | visit {loca b} (he : e = .mapDone i) (h : job.argc ≤ loca) (hc : job.combine = true) :
      MapperChange job i e (.files loca) b (.combining (.between (b.next hdr))) b
  | skip {loca b} (he : e = .mapDone i) (h : job.argc ≤ loca) (hc : job.combine = false) :
      MapperChange job i e (.files loca) b .exited b
  | call {head b k} (he : e = .combine i k) (hi : i < job.argc) (h0 : head ≠ 0)
      (hk : b.key head = some k) :
      MapperChange job i e (.combining (.between head)) b (.combining (.inside head k false)) b
  | get {head b b' k val} (he : e = .getForCombine i k val) (h : getNext k b = some (val, b')) :
      MapperChange job i e (.combining (.inside head k false)) b
        (.combining (.inside head k val.isNone)) b'
  | emitToReducer {pc b k v} (he : e = .emitToReducer i k v) (h : pc.inClient = true) :
      MapperChange job i e pc b pc b
  | ret {head k b} (he : e = .combineReturn i) :
      MapperChange job i e (.combining (.inside head k true)) b
        (.combining (.between (b.next head))) b
  | done {head b} (he : e = .combineDone i) (h : i < job.argc → head = 0) :
      MapperChange job i e (.combining (.between head)) b .exited b

/-- What an event `e` can do to reducer thread `j` at `pc` and to its bucket. -/
inductive ReducerChange (job : Job κ) (j : ℕ) (e : Event κ ν) :
    ReducerPc κ → Bucket κ ν → ReducerPc κ → Bucket κ ν → Prop
  | frame {pc b} (he : e.reducer? ≠ some j)
      (hs : ∀ i k v, e = .emitToReducer i k v → job.partition k ≠ j) :
      ReducerChange job j e pc b pc b
  | insert {i pc b b' k v} (he : e = .emitToReducer i k v) (hj : job.partition k = j)
      (h : llInsert k v b = some b') : ReducerChange job j e pc b pc b'
  | create {b} (he : e = .main) : ReducerChange job j e .idle b .created b
  | enter {b} (he : e = .reducerEnter j) :
      ReducerChange job j e .created b (.reducing (.between (b.next hdr))) b
  | call {head b k} (he : e = .reduce j k) (h0 : head ≠ 0) (hk : b.key head = some k) :
      ReducerChange job j e (.reducing (.between head)) b (.reducing (.inside head k false)) b
  | get {head b b' k val} (he : e = .getForReducer j k val) (h : getNext k b = some (val, b')) :
      ReducerChange job j e (.reducing (.inside head k false)) b
        (.reducing (.inside head k val.isNone)) b'
  | ret {head k b} (he : e = .reduceReturn j) :
      ReducerChange job j e (.reducing (.inside head k true)) b
        (.reducing (.between (b.next head))) b
  | done {b} (he : e = .reduceDone j) :
      ReducerChange job j e (.reducing (.between 0)) b .exited b

section Step

variable {job : Job κ} {s t t' : State κ ν} {e : Event κ ν} {i j : ℕ}

/-- A step of mapper thread `i` leaves the other mapper threads alone. -/
theorem MapperChange.update {pc₀ pc : MapperPc κ} {b : Bucket κ ν} (he : e.mapper? = some i)
    (h₀ : s.mapper i = pc₀) (h : MapperChange job i e pc₀ (s.headerOfCurMapper i) pc b)
    (ht : t' = t) (hpc : t'.mapper = Function.update s.mapper i pc)
    (hb : t'.headerOfCurMapper = Function.update s.headerOfCurMapper i b) (i' : ℕ) :
    MapperChange job i' e (s.mapper i') (s.headerOfCurMapper i') (t.mapper i')
      (t.headerOfCurMapper i') := by
  subst ht
  rw [hpc, hb]
  rcases eq_or_ne i' i with rfl | hne
  · simpa [h₀] using h
  · simpa [hne] using MapperChange.frame (by simpa [he] using hne.symm)

/-- A step of reducer thread `j` leaves the other reducer threads alone. -/
theorem ReducerChange.update {pc₀ pc : ReducerPc κ} {b : Bucket κ ν} (he : e.reducer? = some j)
    (h₀ : s.reducer j = pc₀) (h : ReducerChange job j e pc₀ (s.headerOfReduce j) pc b)
    (ht : t' = t) (hpc : t'.reducer = Function.update s.reducer j pc)
    (hb : t'.headerOfReduce = Function.update s.headerOfReduce j b) (j' : ℕ) :
    ReducerChange job j' e (s.reducer j') (s.headerOfReduce j') (t.reducer j')
      (t.headerOfReduce j') := by
  subst ht
  rw [hpc, hb]
  rcases eq_or_ne j' j with rfl | hne
  · simpa [h₀] using h
  · simpa [hne] using ReducerChange.frame (by simpa [he] using hne.symm)
      (by rintro i k v rfl; simp [Event.reducer?] at he)

variable [DecidableEq ν]

/-- The main thread's data is its own, and so are the mapper side and the reducer side, but for
`MR_EmitToReducer`. -/
theorem step_frame (h : step job s e = some t) (he : e ≠ .main) :
    t.main = s.main ∧ t.curMapTid = s.curMapTid ∧
      (e.mapper? = none → t.mapper = s.mapper ∧ t.headerOfCurMapper = s.headerOfCurMapper) ∧
      (e.reducer? = none → t.reducer = s.reducer) ∧
      (e.reducer? = none → (∀ i k v, e ≠ .emitToReducer i k v) →
        t.headerOfReduce = s.headerOfReduce) ∧
      t.lockerForWrapper = s.lockerForWrapper + e.isEnter.toNat := by
  cases e with
  | main => exact absurd rfl he
  | emitToReducer i k v =>
    simp only [step, emitToReducer, Option.bind_eq_bind] at h
    split at h <;> simp only [Option.bind_eq_some_iff, Option.some.injEq, reduceCtorEq] at h
    obtain ⟨b, -, rfl⟩ := h
    simp [State.setReduceBucket, Event.mapper?, Event.isEnter]
  | emitToCombiner i k v =>
    simp only [step, Option.bind_eq_bind] at h
    split at h <;> simp only [Option.bind_eq_some_iff, Option.some.injEq, reduceCtorEq] at h
    obtain ⟨index, -, b, -, rfl⟩ := h
    simp [State.setMapBucket, Event.mapper?, Event.isEnter]
  | getForCombine i k v =>
    simp only [step, Option.bind_eq_bind] at h
    split at h <;> simp only [Option.bind_eq_some_iff, reduceCtorEq] at h
    obtain ⟨index, -, ⟨val, b⟩, -, h⟩ := h
    split at h <;> simp only [Option.some.injEq, reduceCtorEq] at h
    subst h
    simp [State.setMapBucket, State.setMapper, Event.mapper?, Event.isEnter]
  | getForReducer j k v =>
    simp only [step, Option.bind_eq_bind] at h
    split at h <;> simp only [Option.bind_eq_some_iff, reduceCtorEq] at h
    obtain ⟨⟨val, b⟩, -, h⟩ := h
    split at h <;> simp only [Option.some.injEq, reduceCtorEq] at h
    subst h
    simp [State.setReduceBucket, State.setReducer, Event.reducer?, Event.isEnter]
  | _ =>
    -- the other events move one thread and write no list
    simp only [step] at h
    repeat' split at h
    all_goals first
      | cases h
        simp [State.setMapper, State.setReducer, Event.mapper?, Event.reducer?, Event.isEnter]
      | cases h

/-- What one step can do to mapper thread `i`. -/
theorem step_mapper (hids : Ids job s) (hph : Phase job s) (h : step job s e = some t) (i : ℕ) :
    MapperChange job i e (s.mapper i) (s.headerOfCurMapper i) (t.mapper i)
      (t.headerOfCurMapper i) := by
  have same := fun i => (Function.update_eq_self i s.headerOfCurMapper).symm
  cases e with
  | main =>
    simp only [step, mainStep] at h
    unfold Phase at hph
    split at h <;> rename_i hmain <;> simp only [hmain] at hph
    · rename_i m
      split at h <;> simp only [Option.some.injEq, reduceCtorEq] at h
      subst h
      obtain ⟨h1, hn, hidle, -⟩ := hph
      rcases eq_or_ne i m with rfl | hne
      · have : s.mapper i = .idle := by
          by_contra hi
          have := (hidle i).1 hi
          omega
        simpa [this] using MapperChange.create rfl h1 hn
      · simpa [hne] using MapperChange.frame (by simp [Event.mapper?])
    · split at h <;> simp only [Option.some.injEq, reduceCtorEq] at h
      subst h
      exact .frame (by simp [Event.mapper?])
    · split at h <;> simp only [Option.some.injEq, reduceCtorEq] at h
      subst h
      exact .frame (by simp [Event.mapper?])
    · split at h <;> simp only [Option.some.injEq, reduceCtorEq] at h
      subst h
      exact .frame (by simp [Event.mapper?])
    · simp at h
  | mapperEnter i' =>
    simp only [step] at h
    split at h <;> simp only [Option.some.injEq, reduceCtorEq] at h
    rename_i hpc
    exact MapperChange.update rfl hpc (.enter rfl) h rfl (same i') i
  | map i' file =>
    simp only [step] at h
    split at h <;> try simp only [reduceCtorEq] at h
    rename_i loca hpc
    split at h <;> simp only [Option.some.injEq, reduceCtorEq] at h
    rename_i hcond
    obtain ⟨hlt, rfl⟩ := hcond
    exact MapperChange.update rfl hpc (.map rfl hlt) h rfl (same i') i
  | emitToCombiner i' key value =>
    simp only [step] at h
    split at h <;> try simp only [reduceCtorEq] at h
    rename_i loca hpc
    rw [ownIndex_eq hids (by simp [hpc])] at h
    simp only [Option.bind_eq_bind, Option.bind_some, Option.bind_eq_some_iff,
      Option.some.injEq] at h
    obtain ⟨b, hb, h⟩ := h
    exact MapperChange.update rfl hpc (.emit rfl hb) h
      (by simp [State.setMapBucket, ← hpc]) rfl i
  | mapReturn i' =>
    simp only [step] at h
    split at h <;> simp only [Option.some.injEq, reduceCtorEq] at h
    rename_i loca hpc
    exact MapperChange.update rfl hpc (.mapReturn rfl) h rfl (same i') i
  | mapDone i' =>
    simp only [step] at h
    split at h <;> try simp only [reduceCtorEq] at h
    rename_i loca hpc
    split at h <;> try simp only [reduceCtorEq] at h
    rename_i hlt
    split at h <;> simp only [Option.some.injEq] at h <;> rename_i hc
    · exact MapperChange.update rfl hpc (.visit rfl (by omega) hc) h rfl (same i') i
    · exact MapperChange.update rfl hpc (.skip rfl (by omega) (by simpa using hc)) h rfl (same i') i
  | combine i' key =>
    simp only [step] at h
    split at h <;> try simp only [reduceCtorEq] at h
    rename_i head hpc
    split at h <;> simp only [Option.some.injEq, reduceCtorEq] at h
    rename_i hcond
    obtain ⟨hi, h0, hk⟩ := hcond
    exact MapperChange.update rfl hpc (.call rfl hi h0 hk) h rfl (same i') i
  | getForCombine i' key result =>
    simp only [step] at h
    split at h <;> try simp only [reduceCtorEq] at h
    rename_i head key' hpc
    rw [ownIndex_eq hids (by simp [hpc])] at h
    simp only [Option.bind_eq_bind, Option.bind_some, Option.bind_eq_some_iff] at h
    obtain ⟨⟨val, b⟩, hg, h⟩ := h
    split at h <;> simp only [Option.some.injEq, reduceCtorEq] at h
    rename_i hcond
    obtain ⟨rfl, rfl⟩ := hcond
    exact MapperChange.update rfl hpc (.get rfl hg) h rfl rfl i
  | emitToReducer i' key value =>
    simp only [step] at h
    split at h <;> try simp only [reduceCtorEq] at h
    rename_i hc
    simp only [emitToReducer, Option.bind_eq_bind, Option.bind_eq_some_iff, Option.some.injEq] at h
    obtain ⟨b, hb, h⟩ := h
    exact MapperChange.update rfl rfl (.emitToReducer rfl hc) h
      (by simp [State.setReduceBucket]) (same i') i
  | combineReturn i' =>
    simp only [step] at h
    split at h <;> simp only [Option.some.injEq, reduceCtorEq] at h
    rename_i head key hpc
    exact MapperChange.update rfl hpc (.ret rfl) h rfl (same i') i
  | combineDone i' =>
    simp only [step] at h
    split at h <;> try simp only [reduceCtorEq] at h
    rename_i head hpc
    split at h <;> simp only [Option.some.injEq, reduceCtorEq] at h
    rename_i hcond
    refine MapperChange.update rfl hpc (.done rfl fun hi => ?_) h rfl (same i') i
    by_contra h0
    exact hcond ⟨hi, h0⟩
  | reducerEnter j | reduce j key | getForReducer j key result | reduceReturn j | reduceDone j =>
    obtain ⟨hm, hb⟩ := (step_frame h (by simp)).2.2.1 rfl
    rw [hm, hb]
    exact .frame (by simp [Event.mapper?])

/-- What one step can do to reducer thread `j`. -/
theorem step_reducer (hph : Phase job s) (h : step job s e = some t) (j : ℕ) :
    ReducerChange job j e (s.reducer j) (s.headerOfReduce j) (t.reducer j)
      (t.headerOfReduce j) := by
  have same := fun j => (Function.update_eq_self j s.headerOfReduce).symm
  cases e with
  | main =>
    simp only [step, mainStep] at h
    unfold Phase at hph
    split at h <;> rename_i hmain <;> simp only [hmain] at hph
    · split at h <;> simp only [Option.some.injEq, reduceCtorEq] at h
      subst h
      exact .frame (by simp [Event.reducer?]) (by simp)
    · split at h <;> simp only [Option.some.injEq, reduceCtorEq] at h
      subst h
      exact .frame (by simp [Event.reducer?]) (by simp)
    · rename_i m
      split at h <;> simp only [Option.some.injEq, reduceCtorEq] at h
      subst h
      obtain ⟨-, -, hidle⟩ := hph
      rcases eq_or_ne j m with rfl | hne
      · have : s.reducer j = .idle := by
          by_contra hj
          exact lt_irrefl j ((hidle j).1 hj)
        simpa [this] using ReducerChange.create rfl
      · simpa [hne] using ReducerChange.frame (by simp [Event.reducer?]) (by simp)
    · split at h <;> simp only [Option.some.injEq, reduceCtorEq] at h
      subst h
      exact .frame (by simp [Event.reducer?]) (by simp)
    · simp at h
  | emitToReducer i key value =>
    simp only [step] at h
    split at h <;> try simp only [reduceCtorEq] at h
    simp only [emitToReducer, Option.bind_eq_bind, Option.bind_eq_some_iff, Option.some.injEq] at h
    obtain ⟨b, hb, rfl⟩ := h
    simp only [State.setReduceBucket]
    rcases eq_or_ne j (job.partition key) with rfl | hne
    · simpa using ReducerChange.insert rfl rfl hb
    · simpa [hne] using ReducerChange.frame (by simp [Event.reducer?]) (by
        rintro i' k v heq
        obtain ⟨-, rfl, -⟩ := Event.emitToReducer.inj heq
        exact hne.symm)
  | reducerEnter j' =>
    simp only [step] at h
    split at h <;> simp only [Option.some.injEq, reduceCtorEq] at h
    rename_i hpc
    exact ReducerChange.update rfl hpc (.enter rfl) h rfl (same j') j
  | reduce j' key =>
    simp only [step] at h
    split at h <;> try simp only [reduceCtorEq] at h
    rename_i head hpc
    split at h <;> simp only [Option.some.injEq, reduceCtorEq] at h
    rename_i hcond
    exact ReducerChange.update rfl hpc (.call rfl hcond.1 hcond.2) h rfl (same j') j
  | getForReducer j' key result =>
    simp only [step] at h
    split at h <;> try simp only [reduceCtorEq] at h
    rename_i head key' hpc
    simp only [Option.bind_eq_bind, Option.bind_eq_some_iff] at h
    obtain ⟨⟨val, b⟩, hg, h⟩ := h
    split at h <;> simp only [Option.some.injEq, reduceCtorEq] at h
    rename_i hcond
    obtain ⟨rfl, rfl⟩ := hcond
    exact ReducerChange.update rfl hpc (.get rfl hg) h rfl rfl j
  | reduceReturn j' =>
    simp only [step] at h
    split at h <;> simp only [Option.some.injEq, reduceCtorEq] at h
    rename_i head key hpc
    exact ReducerChange.update rfl hpc (.ret rfl) h rfl (same j') j
  | reduceDone j' =>
    simp only [step] at h
    split at h <;> try simp only [reduceCtorEq] at h
    rename_i head hpc
    split at h <;> simp only [Option.some.injEq, reduceCtorEq] at h
    rename_i hcond
    obtain rfl := not_not.1 hcond
    exact ReducerChange.update rfl hpc (.done rfl) h rfl (same j') j
  | _ =>
    obtain ⟨-, -, -, hr, hb, -⟩ := step_frame h (by simp)
    rw [hr rfl, hb rfl (by simp)]
    exact .frame (by simp [Event.reducer?]) (by simp)

omit [DecidableEq ν] in
/-- Only the main thread creates threads, and a thread that has returned stays so. -/
theorem MapperChange.kept {pc pc' : MapperPc κ} {b b' : Bucket κ ν}
    (h : MapperChange job i e pc b pc' b') (he : e ≠ .main) :
    (pc' = .idle ↔ pc = .idle) ∧ (pc = .exited → pc' = .exited) := by
  cases h <;> first | exact ⟨Iff.rfl, id⟩ | exact absurd (by assumption) he | simp

omit [DecidableEq ν] in
theorem ReducerChange.kept {pc pc' : ReducerPc κ} {b b' : Bucket κ ν}
    (h : ReducerChange job j e pc b pc' b') (he : e ≠ .main) :
    (pc' = .idle ↔ pc = .idle) ∧ (pc = .exited → pc' = .exited) := by
  cases h <;> first | exact ⟨Iff.rfl, id⟩ | exact absurd (by assumption) he | simp

/-- Every step keeps the thread ids and the phase. -/
theorem step_keeps (hids : Ids job s) (hph : Phase job s) (h : step job s e = some t) :
    Ids job t ∧ Phase job t := by
  by_cases he : e = .main
  · subst he
    exact mainStep_keeps hids hph h
  have hm := fun i => (step_mapper hids hph h i).kept he
  have hr := fun j => (step_reducer hph h j).kept he
  obtain ⟨hmain, htid, -⟩ := step_frame h he
  constructor
  · exact
      { range := fun i hi => hids.range i fun hidle => hi ((hm i).1.2 hidle)
        created := fun i hi => by
          rw [htid]; exact hids.created i fun hidle => hi ((hm i).1.2 hidle)
        idle := fun i hi => by rw [htid]; exact hids.idle i ((hm i).1.1 hi) }
  · have hdone : MappersDone job s → MappersDone job t := fun hd =>
      ⟨fun i => by rw [ne_eq, (hm i).1]; exact hd.1 i,
        fun i hi => (hm i).2 (hd.2 i fun hidle => hi ((hm i).1.2 hidle))⟩
    unfold Phase at hph ⊢
    rw [hmain]
    simp only [ne_eq, (hm _).1, (hr _).1]
    split <;> rename_i hpc <;> simp only [hpc, ne_eq] at hph
    · exact hph
    · obtain ⟨h1, hn, hidle, hex, hred⟩ := hph
      exact ⟨h1, hn, hidle, fun i hi hlt => (hm i).2 (hex i hi hlt), hred⟩
    · obtain ⟨hlt, hd, hred⟩ := hph
      exact ⟨hlt, hdone hd, hred⟩
    · obtain ⟨hlt, hd, hred, hex⟩ := hph
      exact ⟨hlt, hdone hd, hred, fun j hj => (hr j).2 (hex j hj)⟩
    · obtain ⟨hd, hred, hex⟩ := hph
      exact ⟨hdone hd, hred, fun j hj => (hr j).2 (hex j hj)⟩

end Step

end OsProjects.MapReduce
