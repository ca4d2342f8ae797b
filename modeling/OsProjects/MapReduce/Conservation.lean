import OsProjects.MapReduce.Threads

/-!
# Nothing is lost and nothing is duplicated

What a run of `MR_Run` has done is read off its events: the files given to the Mapper, the pairs
emitted, the calls of the Combiner and of the Reducer and the values their getters returned.
`MapperBooks` and `ReducerBooks` say what a thread's place in its code and its bucket have to do
with these; every step keeps them (`Books.step`), and when `MR_Run` returns they give `Conserved`.
-/

namespace OsProjects.MapReduce

variable {κ ν : Type}

/-! ### The record of a run -/

/-- The files given to the Mapper. -/
def files (as : List (Event κ ν)) : List ℕ :=
  as.filterMap fun | .map _ file => some file | _ => none

/-- The files mapper thread `i` gave to the Mapper. -/
def filesOf (i : ℕ) (as : List (Event κ ν)) : List ℕ :=
  as.filterMap fun | .map i' file => if i' = i then some file else none | _ => none

/-- The pairs mapper thread `i` emitted to its Combiner. -/
def combineEmitted (i : ℕ) (as : List (Event κ ν)) : List (κ × ν) :=
  as.filterMap fun | .emitToCombiner i' k v => if i' = i then some (k, v) else none | _ => none

/-- The keys of the Combiner's calls in mapper thread `i`. -/
def combineCalls (i : ℕ) (as : List (Event κ ν)) : List κ :=
  as.filterMap fun | .combine i' k => if i' = i then some k else none | _ => none

/-- The values the Combiner received in mapper thread `i`, with the key of the call. -/
def combineReceived (i : ℕ) (as : List (Event κ ν)) : List (κ × ν) :=
  as.filterMap fun
    | .getForCombine i' k (some v) => if i' = i then some (k, v) else none
    | _ => none

/-- The pairs emitted to the Reducer. -/
def sent (as : List (Event κ ν)) : List (κ × ν) :=
  as.filterMap fun | .emitToReducer _ k v => some (k, v) | _ => none

/-- The pairs emitted to the Reducer whose partition is `j`. -/
def sentTo (job : Job κ) (j : ℕ) (as : List (Event κ ν)) : List (κ × ν) :=
  (sent as).filter fun p => job.partition p.1 = j

/-- The keys of the Reducer's calls in partition `j`. -/
def reduceCalls (j : ℕ) (as : List (Event κ ν)) : List κ :=
  as.filterMap fun | .reduce j' k => if j' = j then some k else none | _ => none

/-- The values the Reducer received in partition `j`, with the key of the call. -/
def reduceReceived (j : ℕ) (as : List (Event κ ν)) : List (κ × ν) :=
  as.filterMap fun
    | .getForReducer j' k (some v) => if j' = j then some (k, v) else none
    | _ => none

section Record

variable {job : Job κ} {i j : ℕ} {as : List (Event κ ν)} {e : Event κ ν}

/-! What one more event adds to each record. -/

@[simp] theorem files_snoc : files (as ++ [e]) =
    files as ++ match e with | .map _ file => [file] | _ => [] := by
  cases e <;> simp [files]

@[simp] theorem filesOf_snoc : filesOf i (as ++ [e]) =
    filesOf i as ++ match e with | .map i' file => if i' = i then [file] else [] | _ => [] := by
  cases e with
  | map i' file => by_cases h : i' = i <;> simp [filesOf, h]
  | _ => simp [filesOf]

@[simp] theorem combineEmitted_snoc : combineEmitted i (as ++ [e]) = combineEmitted i as ++
    match e with | .emitToCombiner i' k v => if i' = i then [(k, v)] else [] | _ => [] := by
  cases e with
  | emitToCombiner i' k v => by_cases h : i' = i <;> simp [combineEmitted, h]
  | _ => simp [combineEmitted]

@[simp] theorem combineCalls_snoc : combineCalls i (as ++ [e]) = combineCalls i as ++
    match e with | .combine i' k => if i' = i then [k] else [] | _ => [] := by
  cases e with
  | combine i' k => by_cases h : i' = i <;> simp [combineCalls, h]
  | _ => simp [combineCalls]

@[simp] theorem combineReceived_snoc : combineReceived i (as ++ [e]) = combineReceived i as ++
    match e with
    | .getForCombine i' k r => if i' = i then r.toList.map (k, ·) else []
    | _ => [] := by
  cases e with
  | getForCombine i' k r => by_cases h : i' = i <;> cases r <;> simp [combineReceived, h]
  | _ => simp [combineReceived]

@[simp] theorem sentTo_snoc : sentTo job j (as ++ [e]) = sentTo job j as ++
    match e with
    | .emitToReducer _ k v => if job.partition k = j then [(k, v)] else []
    | _ => [] := by
  cases e with
  | emitToReducer i k v => by_cases h : job.partition k = j <;> simp [sentTo, sent, h]
  | _ => simp [sentTo, sent]

@[simp] theorem reduceCalls_snoc : reduceCalls j (as ++ [e]) = reduceCalls j as ++
    match e with | .reduce j' k => if j' = j then [k] else [] | _ => [] := by
  cases e with
  | reduce j' k => by_cases h : j' = j <;> simp [reduceCalls, h]
  | _ => simp [reduceCalls]

@[simp] theorem reduceReceived_snoc : reduceReceived j (as ++ [e]) = reduceReceived j as ++
    match e with
    | .getForReducer j' k r => if j' = j then r.toList.map (k, ·) else []
    | _ => [] := by
  cases e with
  | getForReducer j' k r => by_cases h : j' = j <;> cases r <;> simp [reduceReceived, h]
  | _ => simp [reduceReceived]

/-- Another thread's event does not show in the record of mapper thread `i`. -/
theorem mapper_record_frame (as : List (Event κ ν)) (he : e.mapper? ≠ some i) :
    filesOf i (as ++ [e]) = filesOf i as ∧ combineEmitted i (as ++ [e]) = combineEmitted i as ∧
      combineCalls i (as ++ [e]) = combineCalls i as ∧
        combineReceived i (as ++ [e]) = combineReceived i as := by
  have hother : ∀ i', some i' ≠ some i → i' ≠ i := fun i' h => by simpa using h
  cases e with
  | map i' file | emitToCombiner i' k v | combine i' k =>
    have := hother i' he
    simp [this]
  | getForCombine i' k r =>
    have := hother i' he
    simp [this]
  | _ => simp

theorem reducer_record_frame (as : List (Event κ ν)) (he : e.reducer? ≠ some j)
    (hs : ∀ i k v, e = .emitToReducer i k v → job.partition k ≠ j) :
    sentTo job j (as ++ [e]) = sentTo job j as ∧ reduceCalls j (as ++ [e]) = reduceCalls j as ∧
      reduceReceived j (as ++ [e]) = reduceReceived j as := by
  have hother : ∀ j', some j' ≠ some j → j' ≠ j := fun j' h => by simpa using h
  cases e with
  | emitToReducer i k v =>
    simp [hs i k v rfl]
  | reduce j' k =>
    have := hother j' he
    simp [this]
  | getForReducer j' k r =>
    have := hother j' he
    simp [this]
  | _ => simp

theorem mem_files_iff {f : ℕ} : f ∈ files as ↔ ∃ i, f ∈ filesOf i as := by
  have hfile : f ∈ files as ↔ ∃ i, .map i f ∈ as := by
    rw [files, List.mem_filterMap]
    constructor
    · rintro ⟨a, ha, hf⟩
      cases a <;> simp only [Option.some.injEq, reduceCtorEq] at hf
      exact ⟨_, hf ▸ ha⟩
    · rintro ⟨i, ha⟩
      exact ⟨_, ha, rfl⟩
  rw [hfile]
  refine exists_congr fun i => ?_
  rw [filesOf, List.mem_filterMap]
  constructor
  · exact fun ha => ⟨_, ha, by simp⟩
  · rintro ⟨a, ha, hf⟩
    cases a <;> simp at hf
    obtain ⟨rfl, rfl⟩ := hf
    exact ha

end Record

variable [DecidableEq κ]

/-- Each of `argv[1..argc-1]` went to the Mapper once; with a Combiner, each mapper thread made one
call for each key it emitted, which received the values it emitted for it; and each key emitted to
the Reducer had one call, in its own partition, which received all values emitted for it. -/
def Conserved (job : Job κ) (as : List (Event κ ν)) : Prop :=
  (files as).Perm (List.range' 1 (job.argc - 1)) ∧
  (job.combine = true → ∀ i, 1 ≤ i → i ≤ job.numMappers →
    (combineCalls i as).Nodup ∧ (∀ k, k ∈ combineCalls i as ↔ ∃ v, (k, v) ∈ combineEmitted i as) ∧
      ∀ k, (valuesOf (combineReceived i as) k).Perm (valuesOf (combineEmitted i as) k)) ∧
  ∀ j, (reduceCalls j as).Nodup ∧
    (∀ k, k ∈ reduceCalls j as ↔ job.partition k = j ∧ ∃ v, (k, v) ∈ sent as) ∧
      ∀ k, job.partition k = j → (valuesOf (reduceReceived j as) k).Perm (valuesOf (sent as) k)

/-! ### The books of a mapper thread -/

/-- Where a mapper thread's visit of its bucket stands; before and after it, at the first node. -/
def MapperPc.visit (b : Bucket κ ν) : MapperPc κ → Visit κ
  | .combining v => v
  | _ => .between (b.next hdr)

/-- A mapper thread that has not left its loop over the files. -/
def MapperPc.Mapping : MapperPc κ → Prop
  | .combining _ | .exited => False
  | _ => True

/-- Where mapper thread `i` stands after giving `m` files to the Mapper. -/
def MapperPc.FilesDone (job : Job κ) (i m : ℕ) : MapperPc κ → Prop
  | .idle | .created => m = 0
  | .files loca => loca = i + m * job.numMappers
  | .mapping loca => loca + job.numMappers = i + m * job.numMappers ∧ i ≤ loca ∧ loca < job.argc
  | .combining _ | .exited => job.argc ≤ i + m * job.numMappers

/-- What the events so far have to do with mapper thread `i` at `pc` and with its bucket. -/
structure MapperBooks (job : Job κ) (i : ℕ) (as : List (Event κ ν)) (pc : MapperPc κ)
    (b : Bucket κ ν) : Prop where
  ledger : ∃ f, Ledger b (pc.visit b) f (combineCalls i as) (combineReceived i as)
    (combineEmitted i as)
  no_calls : pc.Mapping → combineCalls i as = []
  no_files : job.argc ≤ i → combineEmitted i as = []
  drained : pc = .exited → job.combine = true → b.next hdr = 0
  files : ∃ m, filesOf i as = (List.range m).map (fun t => i + t * job.numMappers) ∧
    (∀ t < m, i + t * job.numMappers < job.argc) ∧ pc.FilesDone job i m

/-- Where a reducer thread's visit of its bucket stands. -/
def ReducerPc.visit (b : Bucket κ ν) : ReducerPc κ → Visit κ
  | .reducing v => v
  | _ => .between (b.next hdr)

/-- What the events so far have to do with reducer thread `j` at `pc` and with its bucket. -/
structure ReducerBooks (job : Job κ) (j : ℕ) (as : List (Event κ ν)) (pc : ReducerPc κ)
    (b : Bucket κ ν) : Prop where
  ledger : ∃ f, Ledger b (pc.visit b) f (reduceCalls j as) (reduceReceived j as) (sentTo job j as)
  no_calls : pc = .idle ∨ pc = .created → reduceCalls j as = []
  drained : pc = .exited → b.next hdr = 0

section Keep

variable {job : Job κ} {i j : ℕ} {as : List (Event κ ν)} {e : Event κ ν} {pc pc' : MapperPc κ}
  {b b' : Bucket κ ν}

theorem mapperBooks_init (job : Job κ) (i : ℕ) :
    MapperBooks job i [] .idle (Bucket.empty : Bucket κ ν) where
  ledger := ⟨_, Ledger.empty⟩
  no_calls := by simp [combineCalls]
  no_files := by simp [combineEmitted]
  drained := by simp
  files := ⟨0, by simp [filesOf], by simp, rfl⟩

/-- A step of the thread that shows in no record and starts no visit. -/
theorem MapperBooks.move (h : MapperBooks job i as pc b)
    (hrec : filesOf i (as ++ [e]) = filesOf i as ∧ combineEmitted i (as ++ [e]) =
    combineEmitted i as ∧
      combineCalls i (as ++ [e]) = combineCalls i as ∧
        combineReceived i (as ++ [e]) = combineReceived i as)
    (hledger : ∀ f, Ledger b (pc.visit b) f (combineCalls i as) (combineReceived i as)
        (combineEmitted i as) →
      Ledger b (pc'.visit b) f (combineCalls i as) (combineReceived i as) (combineEmitted i as))
    (hmap : pc'.Mapping → pc.Mapping)
    (hdrained : pc' = .exited → job.combine = true → b.next hdr = 0)
    (hfiles : ∀ m, pc.FilesDone job i m → pc'.FilesDone job i m) :
    MapperBooks job i (as ++ [e]) pc' b := by
  obtain ⟨hf, he, hc, hr⟩ := hrec
  obtain ⟨f, hl⟩ := h.ledger
  obtain ⟨m, hm, hlt, hdone⟩ := h.files
  constructor
  · rw [hc, hr, he]
    exact ⟨f, hledger f hl⟩
  · rw [hc]
    exact fun hp => h.no_calls (hmap hp)
  · rw [he]
    exact h.no_files
  · exact hdrained
  · exact ⟨m, by rw [hf, hm], hlt, hfiles m hdone⟩

/-- Every step keeps the books of every mapper thread. -/
theorem MapperBooks.step (h : MapperBooks job i as pc b) (hc : MapperChange job i e pc b pc' b') :
    MapperBooks job i (as ++ [e]) pc' b' := by
  cases hc with
  | frame he => exact h.move (mapper_record_frame as he) (fun _ => id) id h.drained fun _ => id
  | create he h1 hn =>
    subst he
    exact h.move (mapper_record_frame as (by simp [Event.mapper?])) (fun _ => id) id (by simp)
      fun _ => id
  | enter he =>
    subst he
    refine h.move (by simp)
      (fun _ => id) id (by simp) ?_
    rintro m rfl
    simp [MapperPc.FilesDone]
  | @map loca _ he hlt =>
    subst he
    obtain ⟨m, hm, hlts, hdone⟩ := h.files
    have hloca : loca = i + m * job.numMappers := hdone
    obtain ⟨f, hl⟩ := h.ledger
    exact
      { ledger := ⟨f, by
          simpa [MapperPc.visit] using hl⟩
        no_calls := fun _ => by simpa using h.no_calls trivial
        no_files := by simpa using h.no_files
        drained := by simp
        files := by
          refine ⟨m + 1, ?_, fun t ht => ?_, ?_, by omega, hlt⟩
          · rw [List.range_succ, List.map_append, ← hm]
            simp [hloca]
          · rcases Nat.lt_succ_iff_lt_or_eq.1 ht with ht | rfl
            · exact hlts t ht
            · omega
          · rw [Nat.succ_mul]
            omega }
  | @emit loca _ _ k v he hins =>
    subst he
    have hcalls : combineCalls i as = [] := h.no_calls trivial
    obtain ⟨f, hl⟩ := h.ledger
    rw [hcalls] at hl
    obtain ⟨b₁, f₁, hb₁, hl₁⟩ := hl.insert k v
    obtain rfl : b₁ = b' := Option.some.inj (hb₁.symm.trans hins)
    obtain ⟨m, hm, hlts, hdone⟩ := h.files
    have hcalls' : combineCalls i (as ++ [.emitToCombiner i k v]) = [] := by
      simpa using hcalls
    exact
      { ledger := ⟨f₁, by
          rw [hcalls']
          simpa [MapperPc.visit] using hl₁⟩
        no_calls := fun _ => hcalls'
        no_files := fun hi => by
          obtain ⟨-, hile, hlt⟩ := hdone
          omega
        drained := by simp
        files := ⟨m, by simpa using hm, hlts, hdone⟩ }
  | mapReturn he =>
    subst he
    exact h.move (by simp)
      (fun _ => id) id (by simp) fun m hm => hm.1
  | visit he hle hcomb =>
    subst he
    refine h.move (by simp)
      (fun _ => id) (by simp [MapperPc.Mapping]) (by simp) ?_
    rintro m rfl
    exact hle
  | skip he hle hcomb =>
    subst he
    refine h.move (by simp)
      (fun _ => id) (by simp [MapperPc.Mapping]) (by simp [hcomb]) ?_
    rintro m rfl
    exact hle
  | @call head _ k he hi h0 hk =>
    subst he
    obtain ⟨f, hl⟩ := h.ledger
    obtain ⟨k₁, hk₁, hl₁⟩ := Ledger.call hl h0
    obtain rfl : k₁ = k := Option.some.inj (hk₁.symm.trans hk)
    obtain ⟨m, hm, hlts, hdone⟩ := h.files
    exact
      { ledger := ⟨f, by
          simpa [MapperPc.visit] using hl₁⟩
        no_calls := by simp [MapperPc.Mapping]
        no_files := by simpa using h.no_files
        drained := by simp
        files := ⟨m, by simpa using hm, hlts, hdone⟩ }
  | @get head _ _ k val he hg =>
    subst he
    obtain ⟨f, hl⟩ := h.ledger
    obtain ⟨val₁, b₁, f₁, hg₁, hl₁⟩ := Ledger.get hl
    obtain ⟨rfl, rfl⟩ : val₁ = val ∧ b₁ = b' := by simpa using hg₁.symm.trans hg
    obtain ⟨m, hm, hlts, hdone⟩ := h.files
    exact
      { ledger := ⟨f₁, by
          simpa [MapperPc.visit] using hl₁⟩
        no_calls := by simp [MapperPc.Mapping]
        no_files := by simpa using h.no_files
        drained := by simp
        files := ⟨m, by simpa using hm, hlts, hdone⟩ }
  | emitToReducer he hin =>
    subst he
    exact h.move (by simp)
      (fun _ => id) id h.drained fun _ => id
  | ret he =>
    subst he
    exact h.move (by simp)
      (fun _ hl => hl.ret) id (by simp) fun _ => id
  | @done head _ he h0 =>
    subst he
    obtain ⟨f, hl⟩ := h.ledger
    have hpos : b.next hdr = head := hl.position
    refine h.move (by simp)
      (fun f hl => ?_) id (fun _ _ => ?_) fun _ => id
    · rw [← hpos] at hl
      exact hl
    · rcases lt_or_ge i job.argc with hi | hi
      · rw [hpos, h0 hi]
      · exact (h.no_files hi ▸ hl).next_eq_zero

/-- Every step keeps the books of every reducer thread; nothing is inserted once it runs. -/
theorem ReducerBooks.step {pc pc' : ReducerPc κ} (h : ReducerBooks job j as pc b)
    (hidle : ∀ i k v, e = .emitToReducer i k v → pc = .idle)
    (hc : ReducerChange job j e pc b pc' b') : ReducerBooks job j (as ++ [e]) pc' b' := by
  obtain ⟨f, hl⟩ := h.ledger
  cases hc with
  | frame he hs =>
    obtain ⟨h1, h2, h3⟩ := reducer_record_frame as he hs
    exact ⟨⟨f, by rwa [h1, h2, h3]⟩, by rw [h2]; exact h.no_calls, h.drained⟩
  | @insert i _ _ _ k v he hj hins =>
    obtain rfl := hidle i k v he
    subst he
    have hcalls : reduceCalls j as = [] := h.no_calls (.inl rfl)
    rw [hcalls] at hl
    obtain ⟨b₁, f₁, hb₁, hl₁⟩ := hl.insert k v
    obtain rfl : b₁ = b' := Option.some.inj (hb₁.symm.trans hins)
    have hcalls' : reduceCalls j (as ++ [.emitToReducer i k v]) = [] := by
      simpa using hcalls
    exact
      { ledger := ⟨f₁, by
          rw [hcalls']
          simpa [ReducerPc.visit, hj] using hl₁⟩
        no_calls := fun _ => hcalls'
        drained := by simp }
  | create he =>
    subst he
    exact ⟨⟨f, by simpa [ReducerPc.visit] using hl⟩,
      fun _ => by simpa using h.no_calls (.inl rfl), by simp⟩
  | enter he =>
    subst he
    exact ⟨⟨f, by simpa [ReducerPc.visit] using hl⟩, by simp, by simp⟩
  | @call head _ k he h0 hk =>
    subst he
    obtain ⟨k₁, hk₁, hl₁⟩ := Ledger.call hl h0
    obtain rfl : k₁ = k := Option.some.inj (hk₁.symm.trans hk)
    exact ⟨⟨f, by simpa [ReducerPc.visit] using hl₁⟩, by simp, by simp⟩
  | @get head _ _ k val he hg =>
    subst he
    obtain ⟨val₁, b₁, f₁, hg₁, hl₁⟩ := Ledger.get hl
    obtain ⟨rfl, rfl⟩ : val₁ = val ∧ b₁ = b' := by simpa using hg₁.symm.trans hg
    refine ⟨⟨f₁, ?_⟩, by simp, by simp⟩
    simpa [ReducerPc.visit] using hl₁
  | ret he =>
    subst he
    exact ⟨⟨f, by simpa [ReducerPc.visit] using Ledger.ret hl⟩, by simp,
      by simp⟩
  | done he =>
    subst he
    have hpos : b.next hdr = 0 := hl.position
    refine ⟨⟨f, ?_⟩, by simp, fun _ => hpos⟩
    rw [← hpos] at hl
    simpa [ReducerPc.visit] using hl

end Keep

end OsProjects.MapReduce
