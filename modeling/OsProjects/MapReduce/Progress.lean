import OsProjects.MapReduce.Return

/-!
# `MR_Run` returns

No call of the client and no thread is ever stuck (`Books.live`), and each thread makes only a
bounded number of steps between the client's emits (`Work`), so `MR_Run` returns whenever the
client emits finitely often.  Together with `Books.conserved` this is the contract of `MR_Run`,
`run_conserves`.
-/

namespace OsProjects.MapReduce

variable {κ ν : Type}

/-- The steps in which the client emits a pair. -/
def Event.isEmit : Event κ ν → Bool
  | .emitToCombiner _ _ _ | .emitToReducer _ _ _ => true
  | _ => false

/-- The steps of the main thread. -/
def Event.isMain : Event κ ν → Bool
  | .main => true
  | _ => false

/-- How often mapper thread `i` has taken a step of its own. -/
def mapperSteps (i : ℕ) (as : List (Event κ ν)) : ℕ :=
  as.countP fun e => e.mapper? = some i ∧ e.isEmit = false

/-- How often reducer thread `j` has taken a step. -/
def reducerSteps (j : ℕ) (as : List (Event κ ν)) : ℕ :=
  as.countP fun e => e.reducer? = some j

/-- How often the main thread has taken a step. -/
def mainSteps (as : List (Event κ ν)) : ℕ := as.countP Event.isMain

/-- The numbers of steps are bounded by the numbers of threads, files and emitted pairs. -/
def Bounded (job : Job κ) (as : List (Event κ ν)) : Prop :=
  mainSteps as ≤ 2 * job.numMappers + 2 * job.numReducers ∧
  (∀ i, mapperSteps i as ≤ 3 + 2 * job.argc + 4 * (combineEmitted i as).length) ∧
  ∀ j, reducerSteps j as ≤ 3 + 4 * (sentTo job j as).length

variable {job : Job κ} {as : List (Event κ ν)} {e : Event κ ν} {i j : ℕ}

/-! ### Numbers of steps -/

/-- The steps a mapper thread has taken at `pc` beyond those its record shows. -/
def MapperPc.rank : MapperPc κ → ℕ
  | .idle | .created | .mapping _ | .combining (.inside _ _ false) => 0
  | .files _ | .combining (.inside _ _ true) => 1
  | .combining (.between _) => 2
  | .exited => 3

/-- The steps a reducer thread has taken at `pc` beyond those its record shows. -/
def ReducerPc.rank : ReducerPc κ → ℕ
  | .idle | .created | .reducing (.inside _ _ false) => 0
  | .reducing (.inside _ _ true) => 1
  | .reducing (.between _) => 2
  | .exited => 3

/-- The steps the main thread has taken at `pc`. -/
def MainPc.rank (job : Job κ) : MainPc → ℕ
  | .createMapper i => i - 1
  | .joinMapper i => job.numMappers + (i - 1)
  | .createReducer j => 2 * job.numMappers + j
  | .joinReducer j => 2 * job.numMappers + job.numReducers + j
  | .returned => 2 * job.numMappers + 2 * job.numReducers

/-- Two steps for a file, three for a call and one for a value received. -/
def MapperWork (i : ℕ) (as : List (Event κ ν)) (pc : MapperPc κ) : Prop :=
  mapperSteps i as ≤ pc.rank + 2 * (filesOf i as).length + 3 * (combineCalls i as).length +
    (combineReceived i as).length

def ReducerWork (j : ℕ) (as : List (Event κ ν)) (pc : ReducerPc κ) : Prop :=
  reducerSteps j as ≤ pc.rank + 3 * (reduceCalls j as).length + (reduceReceived j as).length

/-- What one more event adds to the numbers of steps. -/
theorem mapperSteps_snoc : mapperSteps i (as ++ [e]) =
    mapperSteps i as + (decide (e.mapper? = some i ∧ e.isEmit = false)).toNat := by
  simp [mapperSteps, List.countP_append, List.countP_singleton, Bool.toNat]

theorem reducerSteps_snoc : reducerSteps j (as ++ [e]) =
    reducerSteps j as + (decide (e.reducer? = some j)).toNat := by
  simp [reducerSteps, List.countP_append, List.countP_singleton, Bool.toNat]

theorem Phase.rank_le {s : State κ ν} (h : Phase job s) :
    s.main.rank job ≤ 2 * job.numMappers + 2 * job.numReducers := by
  unfold Phase at h
  split at h <;> rename_i hm <;> simp only [hm, MainPc.rank] <;> omega

variable [DecidableEq κ] [DecidableEq ν]

/-- Before the return some thread can go on without help from the client, and every call of the
client can be carried out, whatever its arguments. -/
def Live (job : Job κ) (s : State κ ν) : Prop :=
  (s.main ≠ .returned → ∃ e t, e.isEmit = false ∧ step job s e = some t) ∧
  (∀ i loca k v, s.mapper i = .mapping loca →
    ∃ t, step job s (.emitToCombiner i k v) = some t) ∧
  (∀ i k v, (s.mapper i).inClient = true → ∃ t, step job s (.emitToReducer i k v) = some t) ∧
  (∀ i head k, s.mapper i = .combining (.inside head k false) →
    ∃ r t, step job s (.getForCombine i k r) = some t) ∧
  ∀ j head k, s.reducer j = .reducing (.inside head k false) →
    ∃ r t, step job s (.getForReducer j k r) = some t

variable {s t : State κ ν}

/-! ### No thread is stuck -/

/-- While the semaphore of the wrappers is taken, a new thread is about to post it. -/
def Locked (s : State κ ν) : Prop :=
  s.lockerForWrapper = 0 → (∃ i, s.mapper i = .created) ∨ ∃ j, s.reducer j = .created

theorem locked_step (hids : Ids job s) (hph : Phase job s) (h : Locked s)
    (hs : step job s e = some t) : Locked t := by
  intro h0
  by_cases he : e = .main
  · subst he
    simp only [step, mainStep] at hs
    split at hs
    · rename_i m hm
      split at hs <;> simp only [Option.some.injEq, reduceCtorEq] at hs
      subst hs
      exact .inl ⟨m, by simp⟩
    · split at hs <;> simp only [Option.some.injEq, reduceCtorEq] at hs
      subst hs
      exact h h0
    · rename_i m hm
      split at hs <;> simp only [Option.some.injEq, reduceCtorEq] at hs
      subst hs
      exact .inr ⟨m, by simp⟩
    · split at hs <;> simp only [Option.some.injEq, reduceCtorEq] at hs
      subst hs
      exact h h0
    · simp at hs
  · obtain ⟨-, -, -, -, -, hlock⟩ := step_frame hs he
    -- the semaphore is still taken, so no thread has entered
    have henter : e.isEnter = false := by
      cases hen : e.isEnter with
      | false => rfl
      | true =>
        simp [hen] at hlock
        omega
    rcases h (by simp [henter] at hlock; omega) with ⟨i, hi⟩ | ⟨j, hj⟩
    · have hc := step_mapper hids hph hs i
      rw [hi] at hc
      refine .inl ⟨i, ?_⟩
      generalize t.mapper i = pc, s.headerOfCurMapper i = b, t.headerOfCurMapper i = b' at hc ⊢
      cases hc with
      | enter he' => simp [he', Event.isEnter] at henter
      | _ => rfl
    · have hc := step_reducer hph hs j
      rw [hj] at hc
      refine .inr ⟨j, ?_⟩
      generalize t.reducer j = pc, s.headerOfReduce j = b, t.headerOfReduce j = b' at hc ⊢
      cases hc with
      | enter he' => simp [he', Event.isEnter] at henter
      | _ => rfl

namespace Books

/-- The getter returns, whatever has happened before. -/
theorem getForCombine (h : Books job as s) {head : ℕ} {k : κ}
    (hpc : s.mapper i = .combining (.inside head k false)) :
    ∃ r t, MapReduce.step job s (.getForCombine i k r) = some t := by
  obtain ⟨f, hl⟩ := (h.mapper i).ledger
  rw [hpc] at hl
  obtain ⟨val, b', -, hg, -⟩ := Ledger.get hl
  exact ⟨val, _, by simp [MapReduce.step, hpc, ownIndex_eq h.ids, hg]; rfl⟩

theorem getForReducer (h : Books job as s) {head : ℕ} {k : κ}
    (hpc : s.reducer j = .reducing (.inside head k false)) :
    ∃ r t, MapReduce.step job s (.getForReducer j k r) = some t := by
  obtain ⟨f, hl⟩ := (h.reducer j).ledger
  rw [hpc] at hl
  obtain ⟨val, b', -, hg, -⟩ := Ledger.get hl
  exact ⟨val, _, by simp [MapReduce.step, hpc, hg]; rfl⟩

theorem emitToCombiner (h : Books job as s) {loca : ℕ} (hpc : s.mapper i = .mapping loca) (k : κ)
    (v : ν) : ∃ t, MapReduce.step job s (.emitToCombiner i k v) = some t := by
  obtain ⟨f, hl⟩ := (h.mapper i).ledger
  obtain ⟨l, hrep⟩ := hl.rep
  obtain ⟨b', -, hb, -⟩ := hrep.llInsert k v
  exact ⟨_, by simp [MapReduce.step, hpc, ownIndex_eq h.ids, hb]; rfl⟩

theorem emitToReducer (h : Books job as s) (hpc : (s.mapper i).inClient = true) (k : κ) (v : ν) :
    ∃ t, MapReduce.step job s (.emitToReducer i k v) = some t := by
  obtain ⟨f, hl⟩ := (h.reducer (job.partition k)).ledger
  obtain ⟨l, hrep⟩ := hl.rep
  obtain ⟨b', -, hb, -⟩ := hrep.llInsert k v
  exact ⟨_, by simp [MapReduce.step, hpc, MapReduce.emitToReducer, hb]; rfl⟩

/-- A mapper thread that has been created and has not returned can go on by itself. -/
theorem mapper_goes_on (h : Books job as s) (hi : s.mapper i ≠ .idle) (hne : s.mapper i ≠ .exited) :
    ∃ e t, e.isEmit = false ∧ MapReduce.step job s e = some t := by
  cases hpc : s.mapper i with
  | idle => exact absurd hpc hi
  | exited => exact absurd hpc hne
  | created => exact ⟨.mapperEnter i, _, rfl, by simp [MapReduce.step, hpc]; rfl⟩
  | files loca =>
    rcases lt_or_ge loca job.argc with hlt | hge
    · exact ⟨.map i loca, _, rfl, by simp [MapReduce.step, hpc, hlt]; rfl⟩
    · cases hc : job.combine with
      | true => exact ⟨.mapDone i, _, rfl, by simp [MapReduce.step, hpc, hge.not_gt, hc]; rfl⟩
      | false => exact ⟨.mapDone i, _, rfl, by simp [MapReduce.step, hpc, hge.not_gt, hc]; rfl⟩
  | mapping loca => exact ⟨.mapReturn i, _, rfl, by simp [MapReduce.step, hpc]; rfl⟩
  | combining v =>
    obtain ⟨f, hl⟩ := (h.mapper i).ledger
    rw [hpc] at hl
    cases v with
    | between head =>
      by_cases hcond : i < job.argc ∧ head ≠ 0
      · obtain ⟨k, hk, -⟩ := Ledger.call hl hcond.2
        exact ⟨.combine i k, _, rfl, by simp [MapReduce.step, hpc, hcond, hk]; rfl⟩
      · exact ⟨.combineDone i, _, rfl, by simp [MapReduce.step, hpc, hcond]; rfl⟩
    | inside head k sawNull =>
      cases sawNull with
      | false =>
        obtain ⟨r, t, hs⟩ := h.getForCombine hpc
        exact ⟨_, t, rfl, hs⟩
      | true => exact ⟨.combineReturn i, _, rfl, by simp [MapReduce.step, hpc]; rfl⟩

/-- A reducer thread that has been created and has not returned can go on by itself. -/
theorem reducer_goes_on (h : Books job as s) (hj : s.reducer j ≠ .idle)
    (hne : s.reducer j ≠ .exited) : ∃ e t, e.isEmit = false ∧ MapReduce.step job s e = some t := by
  cases hpc : s.reducer j with
  | idle => exact absurd hpc hj
  | exited => exact absurd hpc hne
  | created => exact ⟨.reducerEnter j, _, rfl, by simp [MapReduce.step, hpc]; rfl⟩
  | reducing v =>
    obtain ⟨f, hl⟩ := (h.reducer j).ledger
    rw [hpc] at hl
    cases v with
    | between head =>
      rcases eq_or_ne head 0 with rfl | h0
      · exact ⟨.reduceDone j, _, rfl, by simp [MapReduce.step, hpc]; rfl⟩
      · obtain ⟨k, hk, -⟩ := Ledger.call hl h0
        exact ⟨.reduce j k, _, rfl, by simp [MapReduce.step, hpc, h0, hk]; rfl⟩
    | inside head k sawNull =>
      cases sawNull with
      | false =>
        obtain ⟨r, t, hs⟩ := h.getForReducer hpc
        exact ⟨_, t, rfl, hs⟩
      | true => exact ⟨.reduceReturn j, _, rfl, by simp [MapReduce.step, hpc]; rfl⟩

/-- The main thread waits only for a thread that can go on. -/
theorem live (h : Books job as s) (hlock : Locked s) : Live job s := by
  refine ⟨fun hret => ?_, fun i loca k v hpc => h.emitToCombiner hpc k v,
    fun i k v hpc => h.emitToReducer hpc k v, fun i head k hpc => h.getForCombine hpc,
    fun j head k hpc => h.getForReducer hpc⟩
  have hwait : s.lockerForWrapper = 0 → ∃ e t,
      e.isEmit = false ∧ MapReduce.step job s e = some t := by
    intro h0
    rcases hlock h0 with ⟨i, hi⟩ | ⟨j, hj⟩
    · exact h.mapper_goes_on (i := i) (by simp [hi]) (by simp [hi])
    · exact h.reducer_goes_on (j := j) (by simp [hj]) (by simp [hj])
  have hph := h.phase
  unfold Phase at hph
  cases hmain : s.main with
  | createMapper m =>
    by_cases h0 : s.lockerForWrapper = 0
    · exact hwait h0
    · exact ⟨.main, _, rfl, by simp [MapReduce.step, mainStep, hmain, h0]; rfl⟩
  | joinMapper m =>
    simp only [hmain] at hph
    obtain ⟨h1, hn, hactive, -⟩ := hph
    by_cases hex : s.mapper m = .exited
    · exact ⟨.main, _, rfl, by simp [MapReduce.step, mainStep, hmain, hex]; rfl⟩
    · exact h.mapper_goes_on ((hactive m).2 ⟨h1, hn⟩) hex
  | createReducer m =>
    by_cases h0 : s.lockerForWrapper = 0
    · exact hwait h0
    · exact ⟨.main, _, rfl, by simp [MapReduce.step, mainStep, hmain, h0]; rfl⟩
  | joinReducer m =>
    simp only [hmain] at hph
    obtain ⟨hlt, -, hactive, -⟩ := hph
    by_cases hex : s.reducer m = .exited
    · exact ⟨.main, _, rfl, by simp [MapReduce.step, mainStep, hmain, hex]; rfl⟩
    · exact h.reducer_goes_on ((hactive m).2 hlt) hex
  | returned => exact absurd hmain hret

end Books

/-! ### The end -/

omit [DecidableEq ν] in
theorem mapperWork_step {pc pc' : MapperPc κ} {b b' : Bucket κ ν} (h : MapperWork i as pc)
    (hc : MapperChange job i e pc b pc' b') : MapperWork i (as ++ [e]) pc' := by
  unfold MapperWork at h ⊢
  rw [mapperSteps_snoc]
  cases hc with
  | frame he =>
    obtain ⟨h1, -, h3, h4⟩ := mapper_record_frame as he
    simpa [he, h1, h3, h4] using h
  | @get head _ _ k val he hg =>
    subst he
    cases val <;> simp [Event.mapper?, Event.isEmit, MapperPc.rank] at h ⊢ <;> omega
  | create he | enter he | map he | emit he | mapReturn he | visit he | skip he | call he
  | emitToReducer he | ret he | done he =>
    subst he
    simp [Event.mapper?, Event.isEmit, MapperPc.rank] at h ⊢
    omega

omit [DecidableEq ν] in
theorem reducerWork_step {pc pc' : ReducerPc κ} {b b' : Bucket κ ν} (h : ReducerWork j as pc)
    (hc : ReducerChange job j e pc b pc' b') : ReducerWork j (as ++ [e]) pc' := by
  unfold ReducerWork at h ⊢
  rw [reducerSteps_snoc]
  cases hc with
  | frame he hs =>
    obtain ⟨-, h2, h3⟩ := reducer_record_frame as he hs
    simpa [he, h2, h3] using h
  | @get head _ _ k val he hg =>
    subst he
    cases val <;> simp [Event.reducer?, ReducerPc.rank] at h ⊢ <;> omega
  | insert he | create he | enter he | call he | ret he | done he =>
    subst he
    simp [Event.reducer?, ReducerPc.rank] at h ⊢
    omega

/-- The main thread has taken the steps that lead to where it is. -/
theorem mainWork_step (hph : Phase job s) (h : mainSteps as = s.main.rank job)
    (hs : step job s e = some t) : mainSteps (as ++ [e]) = t.main.rank job := by
  have hsnoc : mainSteps (as ++ [e]) = mainSteps as + e.isMain.toNat := by
    simp [mainSteps, List.countP_append, List.countP_singleton, Bool.toNat]
  rw [hsnoc, h]
  by_cases he : e = .main
  · subst he
    unfold Phase at hph
    simp only [step, mainStep] at hs
    split at hs <;> rename_i hm <;> simp only [hm] at hph
    · split at hs <;> simp only [Option.some.injEq, reduceCtorEq] at hs
      subst hs
      obtain ⟨h1, hn, -⟩ := hph
      dsimp only
      split <;> simp [hm, MainPc.rank, Event.isMain] <;> omega
    · split at hs <;> simp only [Option.some.injEq, reduceCtorEq] at hs
      subst hs
      obtain ⟨h1, hn, -⟩ := hph
      dsimp only
      split <;> simp [hm, MainPc.rank, Event.isMain] <;> omega
    · split at hs <;> simp only [Option.some.injEq, reduceCtorEq] at hs
      subst hs
      dsimp only
      split <;> simp [hm, MainPc.rank, Event.isMain] <;> omega
    · split at hs <;> simp only [Option.some.injEq, reduceCtorEq] at hs
      subst hs
      dsimp only
      split <;> simp [hm, MainPc.rank, Event.isMain] <;> omega
    · simp at hs
  · rw [(step_frame hs he).1]
    have : e.isMain = false := by cases e <;> first | rfl | exact absurd rfl he
    simp [this]

omit [DecidableEq ν] in
theorem Books.filesOf_length (h : Books job as s) : (filesOf i as).length ≤ job.argc := by
  obtain ⟨m, hm, hlt, -⟩ := (h.mapper i).files
  rw [hm, List.length_map, List.length_range]
  rcases Nat.eq_zero_or_pos m with rfl | hpos
  · omega
  · have hlast := hlt (m - 1) (by omega)
    have := Nat.mul_le_mul_left (m - 1) job.mappers_pos
    omega

/-- What a run keeps besides the books. -/
structure Account (job : Job κ) (as : List (Event κ ν)) (s : State κ ν) : Prop where
  books : Books job as s
  locked : Locked s
  main : mainSteps as = s.main.rank job
  mapper : ∀ i, MapperWork i as (s.mapper i)
  reducer : ∀ j, ReducerWork j as (s.reducer j)

theorem Account.step (h : Account job as s) (hs : MapReduce.step job s e = some t) :
    Account job (as ++ [e]) t :=
  have hids := h.books.ids
  have hph := h.books.phase
  { books := h.books.step hs
    locked := locked_step hids hph h.locked hs
    main := mainWork_step hph h.main hs
    mapper := fun i => mapperWork_step (h.mapper i) (step_mapper hids hph hs i)
    reducer := fun j => reducerWork_step (h.reducer j) (step_reducer hph hs j) }

theorem account_run (h : Run (Step job) (init κ ν) as s) : Account job as s := by
  refine h.trace_invariant ?_ fun as s e t h hs => h.step hs
  exact
    { books := Books.init
      locked := by simp [Locked, init]
      main := rfl
      mapper := fun i => Nat.zero_le _
      reducer := fun j => Nat.zero_le _ }

theorem Account.bounded (h : Account job as s) : Bounded job as := by
  refine ⟨h.main ▸ h.books.phase.rank_le, fun i => ?_, fun j => ?_⟩
  · obtain ⟨f, hl⟩ := (h.books.mapper i).ledger
    have hwork : mapperSteps i as ≤ (s.mapper i).rank + _ + _ + _ := h.mapper i
    have hrank : (s.mapper i).rank ≤ 3 := by unfold MapperPc.rank; split <;> omega
    have := h.books.filesOf_length (i := i)
    have := hl.called_length
    have := hl.received_length
    omega
  · obtain ⟨f, hl⟩ := (h.books.reducer j).ledger
    have hwork : reducerSteps j as ≤ (s.reducer j).rank + _ + _ := h.reducer j
    have hrank : (s.reducer j).rank ≤ 3 := by unfold ReducerPc.rank; split <;> omega
    have := hl.called_length
    have := hl.received_length
    omega

/-- **`MR_Run` neither loses nor duplicates data.**  In every run, whatever the client emits and
however the threads are interleaved: no thread and no call of the client is stuck, each thread's
steps are bounded by what has been emitted, and once `MR_Run` has returned, each file has been
mapped once, each mapper's Combiner and each partition's Reducer have been called once for each key,
and the calls received what was emitted for their keys. -/
theorem run_conserves (h : Run (Step job) (init κ ν) as s) :
    Live job s ∧ Bounded job as ∧ (s.main = .returned → Conserved job as) :=
  have hacc := account_run h
  ⟨hacc.books.live hacc.locked, hacc.bounded, hacc.books.conserved⟩

/-- Two files, two mapper threads and one partition. -/
def smallJob : Job ℕ where
  argc := 3
  numMappers := 2
  numReducers := 1
  combine := true
  partition := fun _ => 0
  tid := fun i => i + 1
  mappers_pos := by decide
  reducers_pos := by decide
  partition_lt := by simp
  tid_ne_zero := by simp
  tid_inj := by simp

/-- Thread 1 emits two values for key 7 and thread 2 one; the Combiner passes on the first. -/
def smallRun : List (Event ℕ ℕ) :=
  [.main, .mapperEnter 1, .main, .map 1 1, .emitToCombiner 1 7 10, .mapperEnter 2, .map 2 2,
    .emitToCombiner 2 7 12, .emitToCombiner 1 7 11, .mapReturn 1, .mapDone 1, .combine 1 7,
    .getForCombine 1 7 (some 11), .emitToReducer 1 7 11, .mapReturn 2, .mapDone 2, .combine 2 7,
    .getForCombine 2 7 (some 12), .getForCombine 1 7 (some 10), .getForCombine 1 7 none,
    .emitToReducer 2 7 12, .getForCombine 2 7 none, .combineReturn 2, .combineReturn 1,
    .combineDone 1, .main, .combineDone 2, .main, .main, .reducerEnter 0, .reduce 0 7,
    .getForReducer 0 7 (some 12), .getForReducer 0 7 (some 11), .getForReducer 0 7 none,
    .reduceReturn 0, .reduceDone 0, .main]

theorem run_conserves_smallRun : ∃ s, Run (Step smallJob) (init ℕ ℕ) smallRun s ∧
    s.main = .returned ∧ Conserved smallJob smallRun := by
  have hrun : ((smallRun.foldlM (step smallJob) (init ℕ ℕ)).map State.main) = some .returned := by
    decide +kernel
  obtain ⟨s, hs, hmain⟩ := Option.map_eq_some_iff.1 hrun
  have h : Run (Step smallJob) (init ℕ ℕ) smallRun s := Run.of_foldlM hs
  exact ⟨s, h, hmain, (run_conserves h).2.2 hmain⟩

end OsProjects.MapReduce
