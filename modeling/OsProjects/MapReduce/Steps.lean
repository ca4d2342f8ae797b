import OsProjects.MapReduce.Counts

/-!
# `wordcount` ends

A run of `wordcount` has a bounded number of steps (`WBooks.length_le`): each step is one of the
main thread, of a mapper or of a reducer thread, and how many steps a thread takes depends on the
words it is given.  As some thread can go on until `MR_Run` returns, it returns, and what has been
printed then are the counts (`wordcount_exact`).
-/

namespace OsProjects.MapReduce

/-! ### Steps, thread by thread -/

section Classes

/-- The elements that belong to some class, class by class. -/
theorem countP_isSome_eq_sum {α : Type} {f : α → Option ℕ} {l : List α} {S : Finset ℕ}
    (h : ∀ i ∉ S, l.countP (fun a => f a = some i) = 0) :
    l.countP (fun a => (f a).isSome) = ∑ i ∈ S, l.countP fun a => f a = some i := by
  induction l with
  | nil => simp
  | cons a l ih =>
    simp only [List.countP_cons, Nat.add_eq_zero_iff, decide_eq_true_eq] at h ⊢
    rw [ih fun i hi => (h i hi).1, Finset.sum_add_distrib]
    congr 1
    cases hfa : f a with
    | none => simp
    | some i =>
      have hi : i ∈ S := by
        by_contra hi
        simpa [hfa] using (h i hi).2
      simp [Finset.sum_ite_eq, hi]

/-- The thread whose Combiner sends. -/
def sender? : Event Word Word → Option ℕ
  | .emitToReducer i _ _ => some i
  | _ => none

/-- The thread that prints. -/
def WEvent.printer? : WEvent → Option ℕ
  | .printf j _ _ => some j
  | .lib _ => none

variable {as : List (Event Word Word)} {was : List WEvent} {i j : ℕ}

theorem mapperSteps_add (i : ℕ) (as : List (Event Word Word)) :
    as.countP (fun e => e.mapper? = some i) =
      mapperSteps i as + (combineEmitted i as).length + (sentBy i as).length := by
  induction as using List.reverseRecOn with
  | nil => rfl
  | append_singleton as e ih =>
    rw [List.countP_append, ih, mapperSteps_snoc, combineEmitted_snoc, sentBy_snoc,
      List.countP_singleton]
    cases e with
    | emitToCombiner i' k v | emitToReducer i' k v =>
      by_cases hi : i' = i
      · simp [Event.mapper?, Event.isEmit, hi]
        omega
      · simp [Event.mapper?, Event.isEmit, hi]
    | mapperEnter i' | map i' _ | mapReturn i' | mapDone i' | combine i' _ | getForCombine i' _ _
    | combineReturn i' | combineDone i' =>
      by_cases hi : i' = i <;> simp [Event.mapper?, Event.isEmit, hi, Nat.add_right_comm _ _ 1]
    | _ => simp [Event.mapper?]

theorem length_sentBy (i : ℕ) (as : List (Event Word Word)) :
    (sentBy i as).length = as.countP fun e => sender? e = some i := by
  rw [sentBy, List.length_filterMap_eq_countP]
  congr 1
  funext e
  cases e with
  | emitToReducer i' k v => by_cases hi : i' = i <;> simp [sender?, hi]
  | _ => simp [sender?]

theorem length_sent (as : List (Event Word Word)) :
    (sent as).length = as.countP fun e => (sender? e).isSome := by
  rw [sent, List.length_filterMap_eq_countP]
  congr 1
  funext e
  cases e <;> rfl

theorem length_prints (j : ℕ) (was : List WEvent) :
    (prints j was).length = was.countP fun e => e.printer? = some j := by
  rw [prints, List.length_filterMap_eq_countP]
  congr 1
  funext e
  cases e with
  | printf j' k v => by_cases hj : j' = j <;> simp [WEvent.printer?, hj]
  | lib e => simp [WEvent.printer?]

/-- Each step is one of the main thread, a mapper thread or a reducer thread, or prints. -/
theorem length_eq (was : List WEvent) : was.length = mainSteps (libEvents was) +
    (libEvents was).countP (fun e => e.mapper?.isSome) +
    (libEvents was).countP (fun e => e.reducer?.isSome) +
    was.countP fun e => e.printer?.isSome := by
  induction was using List.reverseRecOn with
  | nil => rfl
  | append_singleton was e ih =>
    rw [List.length_append, ih]
    cases e with
    | printf j k v => simp [WEvent.printer?]; omega
    | lib e =>
      cases e <;> simp [mainSteps, WEvent.printer?, Event.isMain, Event.mapper?, Event.reducer?] <;>
        omega

end Classes

/-! ### The steps of a run -/

section Steps

variable {files : List (List UInt8)} {job : Job Word} {s : WState} {was : List WEvent} {i j : ℕ}

theorem WBooks.mapper_idle (h : WBooks files job was s) (hi : i ∉ Finset.Icc 1 job.numMappers) :
    s.lib.mapper i = .idle := by
  by_contra hne
  exact hi (Finset.mem_Icc.2 (h.account.books.ids.range i hne))

theorem WBooks.reducer_idle (h : WBooks files job was s) (hj : job.numReducers ≤ j) :
    s.lib.reducer j = .idle := by
  by_contra hne
  have hph := h.account.books.phase
  unfold Phase at hph
  split at hph
  · exact hne (hph.2.2.2 j)
  · exact hne (hph.2.2.2.2 j)
  · have := (hph.2.2 j).1 hne
    omega
  · have := (hph.2.2.1 j).1 hne
    omega
  · have := (hph.2.1 j).1 hne
    omega

/-- A mapper thread emits no more words than its files have. -/
theorem WBooks.combineEmitted_le (h : WBooks files job was s) (i : ℕ) :
    (combineEmitted i (libEvents was)).length ≤
      ((filesOf i (libEvents was)).flatMap fun f => tokens (content files f)).length := by
  have hlen := congrArg List.length (h.mapper i).emitted
  rw [List.length_append, List.length_map, List.length_map] at hlen
  omega

/-- It sends no more than it emits. -/
theorem WBooks.sentBy_le (h : WBooks files job was s) (i : ℕ) :
    (sentBy i (libEvents was)).length ≤ (combineEmitted i (libEvents was)).length := by
  obtain ⟨ks, hks, hsent⟩ := (h.mapper i).calls.exists_lines
  obtain ⟨f, hl⟩ := (h.account.books.mapper i).ledger
  rw [hsent, List.length_map]
  exact hks.length_le.trans hl.called_length

/-- The steps of a mapper thread. -/
theorem WBooks.mapper_le (h : WBooks files job was s) (i : ℕ) :
    (libEvents was).countP (fun e => e.mapper? = some i) ≤
      3 + 2 * job.argc + 6 * (combineEmitted i (libEvents was)).length := by
  have hbounded := h.account.bounded.2.1 i
  have hsent := h.sentBy_le i
  rw [mapperSteps_add]
  omega

theorem WBooks.mapper_nil (h : WBooks files job was s) (hi : i ∉ Finset.Icc 1 job.numMappers) :
    (libEvents was).countP (fun e => e.mapper? = some i) = 0 := by
  obtain ⟨f, hl⟩ := (h.account.books.mapper i).ledger
  have hwork : mapperSteps i (libEvents was) ≤ (s.lib.mapper i).rank + _ + _ + _ :=
    h.account.mapper i
  have hemitted := h.combineEmitted_le i
  have hsent := h.sentBy_le i
  have hcalled := hl.called_length
  have hreceived := hl.received_length
  rw [h.mapper_idle hi, MapperPc.rank, h.filesOf_nil hi] at hwork
  rw [h.filesOf_nil hi, List.flatMap_nil, List.length_nil] at hemitted
  rw [List.length_nil] at hwork
  rw [mapperSteps_add]
  omega

theorem WBooks.sentTo_nil (hj : job.numReducers ≤ j) (as : List (Event Word Word)) :
    sentTo job j as = [] := by
  rw [sentTo, List.filter_eq_nil_iff]
  intro p _
  have := job.partition_lt p.1
  simp only [decide_eq_true_eq]
  omega

/-- The steps of a reducer thread. -/
theorem WBooks.reducer_le (h : WBooks files job was s) (j : ℕ) :
    (libEvents was).countP (fun e => e.reducer? = some j) ≤
      3 + 4 * (sentTo job j (libEvents was)).length :=
  h.account.bounded.2.2 j

/-- It prints at most as many lines as it has been sent pairs. -/
theorem WBooks.prints_le (h : WBooks files job was s) (j : ℕ) :
    (prints j was).length ≤ (sentTo job j (libEvents was)).length := by
  obtain ⟨ks, hks, hprints⟩ := (h.reducer j).exists_lines
  obtain ⟨f, hl⟩ := (h.account.books.reducer j).ledger
  rw [hprints, List.length_map]
  exact hks.length_le.trans hl.called_length

theorem WBooks.reducer_nil (h : WBooks files job was s) (hj : j ∉ Finset.range job.numReducers) :
    (libEvents was).countP (fun e => e.reducer? = some j) = 0 := by
  rw [Finset.mem_range, not_lt] at hj
  obtain ⟨f, hl⟩ := (h.account.books.reducer j).ledger
  have hwork : reducerSteps j (libEvents was) ≤ (s.lib.reducer j).rank + _ + _ :=
    h.account.reducer j
  have hcalled := hl.called_length
  have hreceived := hl.received_length
  rw [WBooks.sentTo_nil hj, List.length_nil] at hcalled hreceived
  rw [h.reducer_idle hj, ReducerPc.rank] at hwork
  have hsteps : (libEvents was).countP (fun e => e.reducer? = some j) = reducerSteps j _ := rfl
  omega

/-- What all reducer threads have been sent. -/
theorem sum_sentTo (job : Job Word) (as : List (Event Word Word)) :
    ∑ j ∈ Finset.range job.numReducers, (sentTo job j as).length = (sent as).length := by
  have hclasses := countP_isSome_eq_sum (f := fun p : Word × Word => some (job.partition p.1))
    (l := sent as) (S := Finset.range job.numReducers) ?_
  · simp only [sentTo, ← List.countP_eq_length_filter]
    simpa using hclasses.symm
  · intro j hj
    have hnil := WBooks.sentTo_nil (not_lt.1 (mt Finset.mem_range.2 hj)) as
    rw [List.countP_eq_length_filter]
    simpa [sentTo] using hnil

/-- What all mapper threads have emitted. -/
theorem WBooks.sum_emitted_le (h : WBooks files job was s) (hargc : job.argc = files.length + 1) :
    ∑ i ∈ Finset.Icc 1 job.numMappers, (combineEmitted i (libEvents was)).length ≤
      (allTokens files).length :=
  calc ∑ i ∈ Finset.Icc 1 job.numMappers, (combineEmitted i (libEvents was)).length
      ≤ ∑ i ∈ Finset.Icc 1 job.numMappers,
          ((filesOf i (libEvents was)).flatMap fun f => tokens (content files f)).length :=
        Finset.sum_le_sum fun i _ => h.combineEmitted_le i
    _ = ((MapReduce.files (libEvents was)).flatMap fun f => tokens (content files f)).length :=
        (h.files_measure List.length rfl fun _ _ => List.length_append).symm
    _ ≤ (allTokens files).length := (h.files_subperm hargc).length_le

theorem WBooks.sent_le (h : WBooks files job was s) (hargc : job.argc = files.length + 1) :
    (sent (libEvents was)).length ≤ (allTokens files).length := by
  have hnil : ∀ i ∉ Finset.Icc 1 job.numMappers,
      (libEvents was).countP (fun e => sender? e = some i) = 0 := by
    intro i hi
    rw [← length_sentBy, h.sentBy_nil hi, List.length_nil]
  rw [length_sent, countP_isSome_eq_sum hnil]
  simp only [← length_sentBy]
  exact (Finset.sum_le_sum fun i _ => h.sentBy_le i).trans (h.sum_emitted_le hargc)

/-- How many steps a run takes at most. -/
def stepBound (files : List (List UInt8)) (job : Job Word) : ℕ :=
  (2 * files.length + 7) * job.numMappers + 5 * job.numReducers + 11 * (allTokens files).length

theorem WBooks.length_le (h : WBooks files job was s) (hargc : job.argc = files.length + 1) :
    was.length ≤ stepBound files job := by
  have hmain := h.account.bounded.1
  have hemitted := h.sum_emitted_le hargc
  have hsent := h.sent_le hargc
  have hmappers : (libEvents was).countP (fun e => e.mapper?.isSome) ≤
      job.numMappers * (3 + 2 * job.argc) + 6 * (allTokens files).length := by
    rw [countP_isSome_eq_sum fun i hi => h.mapper_nil hi]
    apply (Finset.sum_le_sum fun i _ => h.mapper_le i).trans
    rw [Finset.sum_add_distrib, Finset.sum_const, Nat.card_Icc, ← Finset.mul_sum, smul_eq_mul,
      Nat.add_sub_cancel]
    omega
  have hreducers : (libEvents was).countP (fun e => e.reducer?.isSome) ≤
      job.numReducers * 3 + 4 * (allTokens files).length := by
    rw [countP_isSome_eq_sum fun j hj => h.reducer_nil hj]
    apply (Finset.sum_le_sum fun j _ => h.reducer_le j).trans
    rw [Finset.sum_add_distrib, Finset.sum_const, Finset.card_range, ← Finset.mul_sum, smul_eq_mul,
      sum_sentTo]
    omega
  have hprints : was.countP (fun e => e.printer?.isSome) ≤ (allTokens files).length := by
    have hnil : ∀ j ∉ Finset.range job.numReducers,
        was.countP (fun e => e.printer? = some j) = 0 := by
      intro j hj
      have hle := h.prints_le j
      rw [WBooks.sentTo_nil (not_lt.1 (mt Finset.mem_range.2 hj)), List.length_nil] at hle
      rw [← length_prints]
      omega
    rw [countP_isSome_eq_sum hnil]
    simp only [← length_prints]
    apply (Finset.sum_le_sum fun j _ => h.prints_le j).trans
    rwa [sum_sentTo]
  rw [length_eq, stepBound]
  rw [hargc] at hmappers
  nlinarith only [hmain, hmappers, hreducers, hprints]

end Steps

/-- **`wordcount` is exact and independent of parallelism.**  However `MR_Run` is set up and its
threads are interleaved, a run has a bounded number of steps, no thread is stuck before the return,
and then each word of the files has been printed once, with the number of its occurrences.  So any
two runs print the same lines. -/
theorem wordcount_exact (files : List (List UInt8)) (h0 : ∀ f ∈ files, 0 ∉ f)
    (hcount : ∀ w, (allTokens files).count w < 10 ^ 9) :
    (∀ (u : Setup) (was : List WEvent) (s : WState), Run (WStep files (u.job files)) winit was s →
      was.length ≤ stepBound files (u.job files) ∧
      (s.lib.main ≠ .returned → ∃ e t, WStep files (u.job files) s e t) ∧
      (s.lib.main = .returned → s.client.stdout.Perm
        ((allTokens files).dedup.map fun w => (w, printInt ((allTokens files).count w))))) ∧
    ∀ (u u' : Setup) (was was' : List WEvent) (s s' : WState),
      Run (WStep files (u.job files)) winit was s →
      Run (WStep files (u'.job files)) winit was' s' →
      s.lib.main = .returned → s'.lib.main = .returned →
      s.client.stdout.Perm s'.client.stdout := by
  have hexact : ∀ (u : Setup) (was : List WEvent) (s : WState),
      Run (WStep files (u.job files)) winit was s → s.lib.main = .returned →
      s.client.stdout.Perm
        ((allTokens files).dedup.map fun w => (w, printInt ((allTokens files).count w))) :=
    fun u was s h hret => (wbooks_run h0 h).stdout_perm rfl rfl hret
  refine ⟨fun u was s h => ⟨(wbooks_run h0 h).length_le rfl,
    fun hret => (wbooks_run h0 h).goes_on rfl hcount hret, hexact u was s h⟩, ?_⟩
  intro u u' was was' s s' h h' hret hret'
  exact (hexact u was s h hret).trans (hexact u' was' s' h' hret').symm

/-- One mapper thread and one partition. -/
def single : Setup where
  numMappers := 1
  numReducers := 1
  partition := fun _ => 0
  tid := fun i => i + 1
  mappers_pos := Nat.one_pos
  reducers_pos := Nat.one_pos
  partition_lt := by simp
  tid_ne_zero := Nat.succ_ne_zero
  tid_inj := by simp

/-- A run on a file with the line `a`, which ends in an empty token. -/
def singleRun : List WEvent :=
  [.lib .main, .lib (.mapperEnter 1), .lib (.map 1 1), .lib (.emitToCombiner 1 [0x61] one),
    .lib (.emitToCombiner 1 [] one), .lib (.mapReturn 1), .lib (.mapDone 1), .lib (.combine 1 []),
    .lib (.getForCombine 1 [] (some one)), .lib (.getForCombine 1 [] none),
    .lib (.emitToReducer 1 [] one), .lib (.combineReturn 1), .lib (.combine 1 [0x61]),
    .lib (.getForCombine 1 [0x61] (some one)), .lib (.getForCombine 1 [0x61] none),
    .lib (.emitToReducer 1 [0x61] one), .lib (.combineReturn 1), .lib (.combineDone 1),
    .lib .main, .lib .main, .lib (.reducerEnter 0), .lib (.reduce 0 [0x61]),
    .lib (.getForReducer 0 [0x61] (some one)), .lib (.getForReducer 0 [0x61] none),
    .printf 0 [0x61] one, .lib (.reduceReturn 0), .lib (.reduce 0 []),
    .lib (.getForReducer 0 [] (some one)), .lib (.getForReducer 0 [] none), .printf 0 [] one,
    .lib (.reduceReturn 0), .lib (.reduceDone 0), .lib .main]

set_option maxRecDepth 20000

theorem wordcount_exact_single : ∃ s, Run (WStep [[0x61, 0x0A]] (single.job [[0x61, 0x0A]])) winit
    singleRun s ∧ s.lib.main = .returned ∧ s.client.stdout.Perm
      ((allTokens [[0x61, 0x0A]]).dedup.map fun w =>
        (w, printInt ((allTokens [[0x61, 0x0A]]).count w))) := by
  have hrun : ((singleRun.foldlM (wstep [[0x61, 0x0A]] (single.job [[0x61, 0x0A]])) winit).map
      fun s => s.lib.main) = some .returned := by
    decide
  obtain ⟨s, hs, hmain⟩ := Option.map_eq_some_iff.1 hrun
  have h : Run (WStep [[0x61, 0x0A]] (single.job [[0x61, 0x0A]])) winit singleRun s :=
    Run.of_foldlM hs
  have hcount : ∀ w, (allTokens [[0x61, 0x0A]]).count w < 10 ^ 9 := by
    intro w
    have hlen : (allTokens [[0x61, 0x0A]]).length = 2 := by decide
    have hle := List.count_le_length (a := w) (l := allTokens [[0x61, 0x0A]])
    omega
  exact ⟨s, h, hmain, ((wordcount_exact _ (by decide) hcount).1 single _ s h).2.2 hmain⟩

end OsProjects.MapReduce
