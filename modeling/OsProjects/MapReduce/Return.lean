import OsProjects.MapReduce.Conservation

/-!
# Runs of `MR_Run`

`Books` collects the invariants of the main thread, of every mapper and reducer thread and of the
files; every step keeps it (`Books.step`).  From it follow the three things the callers of `MR_Run`
rely on: no thread is ever stuck (`Live`), each thread makes a number of steps bounded by what the
client emits (`Bounded`), and at the return all data has been processed once (`Conserved`).
-/

namespace OsProjects.MapReduce

variable {κ ν : Type} [DecidableEq κ]

/-- The invariant of a run: `as` are the events so far. -/
structure Books (job : Job κ) (as : List (Event κ ν)) (s : State κ ν) : Prop where
  ids : Ids job s
  phase : Phase job s
  mapper : ∀ i, MapperBooks job i as (s.mapper i) (s.headerOfCurMapper i)
  reducer : ∀ j, ReducerBooks job j as (s.reducer j) (s.headerOfReduce j)
  files_nodup : (files as).Nodup

variable {job : Job κ} {as : List (Event κ ν)} {s t : State κ ν} {e : Event κ ν} {i j : ℕ}

/-- Two threads never meet at a file: their numbers are the residues of their files. -/
theorem stride_inj {n i i' t t' : ℕ} (h1 : 1 ≤ i) (hn : i ≤ n) (h1' : 1 ≤ i') (hn' : i' ≤ n)
    (h : i + t * n = i' + t' * n) : i = i' ∧ t = t' := by
  have hdiv : ∀ {i t : ℕ}, 1 ≤ i → i ≤ n →
      (i - 1 + t * n) / n = t ∧ (i - 1 + t * n) % n = i - 1 := by
    intro i t h1 hn
    rw [Nat.add_mul_div_right _ _ (by omega), Nat.add_mul_mod_self_right,
      Nat.div_eq_of_lt (by omega), Nat.mod_eq_of_lt (by omega)]
    omega
  have heq : i - 1 + t * n = i' - 1 + t' * n := by omega
  have h₁ := hdiv (t := t) h1 hn
  have h₂ := hdiv (t := t') h1' hn'
  rw [heq] at h₁
  omega

namespace Books

/-- The files of a thread are in its stride, and the thread has been created. -/
theorem mem_filesOf (h : Books job as s) {f : ℕ} (hf : f ∈ filesOf i as) :
    1 ≤ i ∧ i ≤ job.numMappers ∧ f < job.argc ∧
      ∃ m t, (s.mapper i).FilesDone job i m ∧ t < m ∧ f = i + t * job.numMappers := by
  obtain ⟨m, hm, hlt, hdone⟩ := (h.mapper i).files
  rw [hm, List.mem_map] at hf
  obtain ⟨t, ht, rfl⟩ := hf
  rw [List.mem_range] at ht
  have hne : s.mapper i ≠ .idle := by
    intro hidle
    rw [hidle] at hdone
    obtain rfl : m = 0 := hdone
    omega
  obtain ⟨h1, hn⟩ := h.ids.range i hne
  exact ⟨h1, hn, hlt t ht, m, t, hdone, ht, rfl⟩

theorem init : Books job [] (init κ ν) where
  ids := ids_init job
  phase := phase_init job
  mapper := mapperBooks_init job
  reducer j := ⟨⟨_, Ledger.empty⟩, by simp [reduceCalls], by simp [MapReduce.init, Bucket.empty]⟩
  files_nodup := List.nodup_nil

/-- A file is given to the Mapper for the first time. -/
theorem file_new (h : Books job as s) {f : ℕ} (hpc : s.mapper i = .files f) : f ∉ files as := by
  intro hmem
  obtain ⟨i', hf⟩ := mem_files_iff.1 hmem
  obtain ⟨h1', hn', -, m', t', hdone', ht', hft'⟩ := h.mem_filesOf hf
  obtain ⟨m, -, -, hdone⟩ := (h.mapper i).files
  rw [hpc] at hdone
  obtain ⟨h1, hn⟩ := h.ids.range i (by simp [hpc])
  have hfm : f = i + m * job.numMappers := hdone
  obtain ⟨rfl, rfl⟩ := stride_inj h1 hn h1' hn' (hfm.symm.trans hft')
  rw [hpc] at hdone'
  have hfm' : f = i + m' * job.numMappers := hdone'
  obtain ⟨-, rfl⟩ := stride_inj h1 hn h1' hn' (hfm.symm.trans hfm')
  omega

end Books

/-! ### The return -/

/-- When `MR_Run` returns, all data has been processed once. -/
theorem Books.conserved (h : Books job as s) (hret : s.main = .returned) : Conserved job as := by
  have hph := h.phase
  unfold Phase at hph
  simp only [hret] at hph
  obtain ⟨⟨hactive, hmaps⟩, hrange, hreds⟩ := hph
  have hexited : ∀ i, 1 ≤ i → i ≤ job.numMappers → s.mapper i = .exited :=
    fun i h1 hn => hmaps i ((hactive i).2 ⟨h1, hn⟩)
  refine ⟨?_, fun hcomb i h1 hn => ?_, fun j => ?_⟩
  · refine (List.perm_ext_iff_of_nodup h.files_nodup List.nodup_range').2 fun f => ?_
    rw [mem_files_iff, List.mem_range'_1]
    constructor
    · rintro ⟨i, hf⟩
      obtain ⟨h1, -, hlt, -, t, -, -, rfl⟩ := h.mem_filesOf hf
      omega
    · intro hf
      -- the file's number determines the thread and the round
      refine ⟨(f - 1) % job.numMappers + 1, ?_⟩
      have hpos := job.mappers_pos
      have hmod := Nat.mod_lt (f - 1) hpos
      obtain ⟨m, hm, -, hdone⟩ := (h.mapper ((f - 1) % job.numMappers + 1)).files
      rw [hexited _ (by omega) (by omega)] at hdone
      have hle : job.argc ≤ (f - 1) % job.numMappers + 1 + m * job.numMappers := hdone
      have hdm := Nat.mod_add_div (f - 1) job.numMappers
      rw [hm, List.mem_map]
      refine ⟨(f - 1) / job.numMappers, List.mem_range.2 ?_, ?_⟩
      · by_contra hge
        have := Nat.mul_le_mul_right job.numMappers (not_lt.1 hge)
        rw [Nat.mul_comm ((f - 1) / job.numMappers)] at this
        omega
      · rw [Nat.mul_comm]
        omega
  · obtain ⟨f, hl⟩ := (h.mapper i).ledger
    have hpc := hexited i h1 hn
    have h0 := (h.mapper i).drained hpc hcomb
    rw [hpc] at hl
    simp only [MapperPc.visit, h0] at hl
    exact hl.balance
  · obtain ⟨f, hl⟩ := (h.reducer j).ledger
    have hmem : ∀ k v, (k, v) ∈ sentTo job j as ↔ job.partition k = j ∧ (k, v) ∈ sent as := by
      intro k v
      simp [sentTo, and_comm]
    rcases lt_or_ge j job.numReducers with hj | hj
    · have hpc := hreds j hj
      have h0 := (h.reducer j).drained hpc
      rw [hpc] at hl
      simp only [ReducerPc.visit, h0] at hl
      obtain ⟨hnd, hcalls, hrec⟩ := hl.balance
      refine ⟨hnd, fun k => ?_, fun k hk => ?_⟩
      · rw [hcalls k]
        simp only [hmem, exists_and_left]
      · refine (hrec k).trans (List.Perm.of_eq ?_)
        simp only [valuesOf, sentTo, List.filter_filter]
        congr 1
        refine List.filter_congr fun p _ => ?_
        by_cases hp : p.1 = k
        · simp [hp, hk]
        · simp [hp]
    · -- no partition has this number
      have hidle : s.reducer j = .idle := by
        by_contra hne
        have := (hrange j).1 hne
        omega
      have hnone : ∀ k, job.partition k ≠ j := fun k hk => by
        have := job.partition_lt k
        omega
      rw [(h.reducer j).no_calls (.inl hidle)]
      exact ⟨List.nodup_nil, fun k => by simp [hnone k], fun k hk => absurd hk (hnone k)⟩

/-! ### Runs -/

variable [DecidableEq ν]

theorem Books.step (h : Books job as s) (hs : MapReduce.step job s e = some t) :
    Books job (as ++ [e]) t := by
  obtain ⟨hids, hph⟩ := step_keeps h.ids h.phase hs
  exact
    { ids := hids
      phase := hph
      mapper := fun i => (h.mapper i).step (step_mapper h.ids h.phase hs i)
      reducer := fun j => by
        refine (h.reducer j).step ?_ (step_reducer h.phase hs j)
        rintro i k v rfl
        have hc : (s.mapper i).inClient = true := by
          by_contra hc
          simp [MapReduce.step, hc] at hs
        exact h.phase.reducer_idle (i := i) (by rintro hi; simp [hi, MapperPc.inClient] at hc)
          (by rintro hi; simp [hi, MapperPc.inClient] at hc) j
      files_nodup := by
        cases e with
        | map i f =>
          have hpc : s.mapper i = .files f := by
            simp only [MapReduce.step] at hs
            split at hs <;> try simp only [reduceCtorEq] at hs
            rename_i loca hpc
            split at hs
            · rename_i hcond
              rw [hpc, hcond.2]
            · cases hs
          have hnew := h.file_new hpc
          have : files (as ++ [.map i f]) = files as ++ [f] := by simp [files]
          rw [this]
          exact h.files_nodup.append (by simp) (by simpa using hnew)
        | _ => simpa [files] using h.files_nodup }

end OsProjects.MapReduce
