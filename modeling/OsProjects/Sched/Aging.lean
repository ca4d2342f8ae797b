import OsProjects.Sched.Slots

/-!
# Aging of waiting processes

`scheduler()` ages the other RUNNABLE processes once a dispatch, but its loop stops at the
dispatched process, so only the processes in earlier slots are aged.  The reachable states keep
every wait counter below the threshold of its level (`reached_inv`); from there the level of a
waiting process is the level of the pure counter `ageLevel` iterated once for each dispatch from a
later slot (`waiting_run`), and `promoted_iff` says exactly when it is promoted.
-/

namespace OsProjects.Sched

/-- The wait ticks after which a process at this level is promoted, `10 * time_slice[level]`. -/
def threshold (level : ℤ) : ℤ := 10 * timeSlice.getD level.toNat 0

theorem threshold_pos {l : ℤ} (h0 : 0 ≤ l) (h3 : l ≤ 3) : 0 < threshold l := by
  obtain rfl | rfl | rfl | rfl : l = 0 ∨ l = 1 ∨ l = 2 ∨ l = 3 := by omega
  all_goals decide

/-- The level is valid and the wait counter has not reached the threshold of a level that has
one. -/
structure Fair (p : Proc) : Prop where
  level : 0 ≤ p.priority ∧ p.priority ≤ 3
  wait : 0 ≤ p.waitTicks
  below : p.priority < 3 → p.waitTicks < threshold p.priority

/-- The invariant: every slot is fair, a CPU runs a RUNNING process that has not waited, and no two
CPUs run the same process. -/
structure Inv (s : System) : Prop where
  fair : ∀ p, Fair (s.table p)
  running : ∀ c p, s.cpu c = .running p →
    (s.table p).state = .running ∧ (s.table p).waitTicks = 0
  unique : ∀ c c' p, s.cpu c = .running p → s.cpu c' = .running p → c = c'

/-- A level that has just been reached with no wait ticks. -/
theorem Fair.of_reset {p : Proc} (h : 0 ≤ p.priority ∧ p.priority ≤ 3) (hw : p.waitTicks = 0) :
    Fair p :=
  ⟨h, hw.ge, fun _ => hw ▸ threshold_pos h.1 h.2⟩

/-! ### The budget updates -/

theorem charge_ok {p p' : Proc} (h : charge p = .ok p') :
    p'.priority = p.priority ∧ p'.waitTicks = 0 ∧ (0 ≤ p.priority ∧ p.priority ≤ 3) := by
  unfold charge at h
  split at h
  · obtain rfl := Except.ok.inj h
    exact ⟨rfl, rfl, by omega⟩
  · cases h

/-- One wait tick: the level and the counter of a waiting process. -/
def ageLevel (lw : ℤ × ℤ) : ℤ × ℤ :=
  if lw.2 + 1 = threshold lw.1 ∧ lw.1 < 3 then (lw.1 + 1, 0) else (lw.1, lw.2 + 1)

/-- The level and the wait counter of a process. -/
def Proc.levelWait (p : Proc) : ℤ × ℤ := (p.priority, p.waitTicks)

theorem age_ok {p pp pp' : Proc} (h : age p pp = .ok pp') :
    pp'.state = pp.state ∧
      (pp.state ≠ .runnable → pp' = pp) ∧
      (pp.state = .runnable → 0 ≤ pp.priority ∧ pp.priority ≤ 3 ∧
        pp'.levelWait = ageLevel pp.levelWait) := by
  unfold age at h
  split at h
  · rename_i hst
    obtain rfl := Except.ok.inj h
    exact ⟨rfl, fun _ => rfl, fun hr => absurd hr hst⟩
  · rename_i hst
    obtain ⟨ts, hts, h⟩ := bind_ok.1 h
    obtain ⟨⟨h0, h4⟩, hts⟩ := index_ok.1 hts
    have h3 : pp.priority ≤ 3 := by simp [timeSlice] at h4; omega
    simp only [← hts] at h
    change (if pp.waitTicks + 1 = threshold pp.priority ∧ pp.priority < 3 then _ else _) = _ at h
    split at h
    · rename_i hth
      obtain ⟨slice, -, h⟩ := bind_ok.1 h
      obtain ⟨tick, -, h⟩ := bind_ok.1 h
      obtain rfl := pure_ok.1 h
      exact ⟨rfl, fun hr => absurd hr hst, fun _ => ⟨h0, h3, (if_pos hth).symm⟩⟩
    · rename_i hth
      obtain rfl := pure_ok.1 h
      exact ⟨rfl, fun hr => absurd hr hst, fun _ => ⟨h0, h3, (if_neg hth).symm⟩⟩

theorem Fair.of_levelWait {p p' : Proc} (h : Fair p) (hp : p'.levelWait = ageLevel p.levelWait) :
    Fair p' := by
  have hl := h.level
  have hw := h.wait
  unfold ageLevel Proc.levelWait at hp
  split_ifs at hp with hth
  · obtain ⟨h1, h2⟩ := Prod.mk.inj hp
    exact .of_reset (by simp only at h1 hth; omega) h2
  · obtain ⟨h1, h2⟩ := Prod.mk.inj hp
    simp only at h1 h2 hth
    refine ⟨by omega, by omega, fun h3 => ?_⟩
    have := h.below (by omega)
    rw [h1, h2]
    have hne : p.waitTicks + 1 ≠ threshold p.priority := fun heq => hth ⟨heq, by omega⟩
    omega

theorem settle_ok {p p' : Proc} {stay : Bool} (h : settle p = .ok (p', stay)) :
    p'.state = p.state ∧ p'.waitTicks = p.waitTicks ∧
      (p'.priority = p.priority ∨ p'.priority = p.priority - 1 ∧ 0 ≤ p'.priority) := by
  unfold settle at h
  split at h
  · obtain ⟨tick, htick, h⟩ := bind_ok.1 h
    obtain ⟨slice, -, h⟩ := bind_ok.1 h
    obtain ⟨rfl, -⟩ := Prod.mk.inj (pure_ok.1 h)
    exact ⟨rfl, rfl, .inr ⟨rfl, (index_ok.1 htick).1.1⟩⟩
  · split at h
    · obtain ⟨rfl, -⟩ := Prod.mk.inj (Except.ok.inj h)
      exact ⟨rfl, rfl, .inl rfl⟩
    · obtain ⟨tick, -, h⟩ := bind_ok.1 h
      obtain ⟨rfl, -⟩ := Prod.mk.inj (pure_ok.1 h)
      exact ⟨rfl, rfl, .inl rfl⟩

theorem boostproc_ok {p p' : Proc} (h : boostproc p = .ok p') :
    p'.state = p.state ∧ (p' = p ∨
      p'.waitTicks = 0 ∧ 0 ≤ p'.priority ∧ p'.priority ≤ 3) := by
  unfold boostproc at h
  split at h
  · obtain ⟨slice, hslice, h⟩ := bind_ok.1 h
    obtain ⟨tick, -, h⟩ := bind_ok.1 h
    obtain rfl := pure_ok.1 h
    obtain ⟨⟨h0, h4⟩, -⟩ := index_ok.1 hslice
    refine ⟨rfl, .inr ⟨rfl, h0, ?_⟩⟩
    simp [slices] at h4
    simp only
    omega
  · obtain rfl := Except.ok.inj h
    exact ⟨rfl, .inl rfl⟩

/-! ### The reachable states -/

theorem fair_alloc (pid : ℕ) (p : Proc) (par : Option Slot) :
    Fair { allocproc pid p with parent := par } :=
  .of_reset (by simp [allocproc]) rfl

/-- A change keeps a slot fair. -/
theorem Change.fair {s : System} (hI : Inv s) {e : Event} {q : Slot} {p' : Proc}
    (h : Change s e q p') : Fair p' := by
  have hq := hI.fair q
  cases h with
  | nudge h =>
    obtain ⟨par, k, st, rfl, -⟩ := h
    exact ⟨hq.level, hq.wait, hq.below⟩
  | alloc pid par h => exact fair_alloc pid _ par
  | forkDone h => exact ⟨hq.level, hq.wait, hq.below⟩
  | forkFail h => exact ⟨hq.level, hq.wait, hq.below⟩
  | reap h => exact ⟨hq.level, hq.wait, hq.below⟩
  | boost c he h hb =>
    obtain ⟨-, rfl | ⟨hw, hl⟩⟩ := boostproc_ok hb
    · exact hq
    · exact .of_reset hl hw
  | dispatch c he hel hc =>
    obtain ⟨hp, hw, hl⟩ := charge_ok hc
    exact .of_reset (by simpa only [hp] using hl) hw
  | age c p he hlt hc ha =>
    obtain ⟨-, hne, heq⟩ := age_ok ha
    by_cases hr : (s.table q).state = .runnable
    · exact hq.of_levelWait (heq hr).2.2
    · rwa [hne hr]
  | release c st par ch k he h hst hs =>
    obtain ⟨-, hw, hl⟩ := settle_ok hs
    have hwait := (hI.running c q h).2
    have := hq.level
    refine .of_reset ?_ (hw.trans hwait)
    simp only at hl
    omega

/-- A change leaves a process alone that keeps running on a CPU, but for a boost. -/
theorem Change.running {s : System} (hI : Inv s) {e : Event} {q : Slot} {p' : Proc}
    (h : Change s e q p') {c : ℕ} (hc : s.cpu c = .running q) (he : ¬ e.Releases c) :
    p'.state = .running ∧ p'.waitTicks = 0 := by
  obtain ⟨hst, hw⟩ := hI.running c q hc
  cases h with
  | nudge h =>
    obtain ⟨par, k, st, rfl, h⟩ := h
    exact ⟨by simpa [hst] using h, hw⟩
  | alloc pid par h => simp [hst] at h
  | forkDone h => simp [hst] at h
  | forkFail h => simp [hst] at h
  | reap h => simp [hst] at h
  | boost c he h hb =>
    obtain ⟨hs, rfl | ⟨hw', -⟩⟩ := boostproc_ok hb
    · exact ⟨hst, hw⟩
    · exact ⟨hs.trans hst, hw'⟩
  | dispatch c he hel hc => exact absurd hel.1 (by simp [hst])
  | age c p he hlt hc ha =>
    rw [(age_ok ha).2.1 (by simp [hst])]
    exact ⟨hst, hw⟩
  | release c' st par ch k he' h hst hs =>
    rw [hI.unique c' c q h hc] at he'
    exact absurd he' he

theorem inv_booted : Inv booted where
  fair p := by
    by_cases h : p = initproc
    · simp only [booted, h, if_true]
      exact .of_reset (by simp [allocproc]) rfl
    · simp only [booted, h, if_false]
      exact .of_reset (by simp [Proc.zero]) rfl
  running c p h := by simp [booted] at h
  unique c c' p h := by simp [booted] at h

theorem inv_step {s t : System} {e : Event} (hI : Inv s) (h : Step s e t) : Inv t := by
  have hslot := step_slot h
  have hcpu := fun c p => step_cpu (c := c) (p := p) h
  refine ⟨fun p => (hslot p).fair hI, fun c p hp => ?_, fun c c' p hp hp' => ?_⟩
  · rcases hcpu c p hp with ⟨hold, hrel⟩ | rfl
    · exact (hslot p).running hI hold hrel
    · obtain ⟨-, -, p₁, hp₁, hp, -⟩ := step_dispatch h
      rw [hp]
      exact ⟨rfl, (charge_ok hp₁).2.1⟩
  · -- a dispatched process was RUNNABLE, so no other CPU ran it
    have hnew : ∀ c c', s.cpu c = .running p → e = .dispatch c' p → False := by
      rintro c c' hc rfl
      have := (step_dispatch h).1.1
      simp [(hI.running c p hc).1] at this
    rcases hcpu c p hp with ⟨hold, -⟩ | he <;> rcases hcpu c' p hp' with ⟨hold', -⟩ | he'
    · exact hI.unique c c' p hold hold'
    · exact (hnew c c' hold he').elim
    · exact (hnew c' c hold' he).elim
    · exact (Event.dispatch.inj (he.symm.trans he')).1

/-- **Every reachable state keeps the wait counters below their thresholds.** -/
theorem reached_inv {s : System} (h : Reached s) : Inv s :=
  h.invariant (by rintro s rfl; exact inv_booted) fun _ _ _ hI he => inv_step hI he

/-! ### Waiting -/

/-- An event through which `q` stays RUNNABLE; a dispatch or a boost would need it RUNNING. -/
def StayStep (q : Slot) (s : System) (e : Event) (t : System) : Prop :=
  Step s e t ∧ (t.table q).state = .runnable

/-- The event is a dispatch. -/
def Event.isDispatch : Event → Bool
  | .dispatch _ _ => true
  | _ => false

/-- The event is a dispatch from a slot behind `q`. -/
def Event.dispatchesBehind (q : Slot) : Event → Bool
  | .dispatch _ p => decide (q < p)
  | _ => false

/-- At some point of the window `es` from `s`, process `q` is one level higher than at its start. -/
def Promoted (q : Slot) (s : System) (es : List Event) : Prop :=
  ∃ es₁ es₂ u, es = es₁ ++ es₂ ∧ Run (StayStep q) s es₁ u ∧
    (u.table q).priority = (s.table q).priority + 1

/-- A waiting process gets one wait tick from each dispatch behind it, and nothing else. -/
theorem stayStep_levelWait {s t : System} {e : Event} {q : Slot} (hI : Inv s)
    (hq : (s.table q).state = .runnable) (h : StayStep q s e t) :
    (t.table q).levelWait =
      if e.dispatchesBehind q then ageLevel (s.table q).levelWait else (s.table q).levelWait := by
  obtain ⟨h, ht⟩ := h
  by_cases hd : ∃ c p, e = .dispatch c p
  · obtain ⟨c, p, rfl⟩ := hd
    obtain ⟨-, -, p₁, -, hp, hrest⟩ := step_dispatch h
    have hqp : q ≠ p := by
      rintro rfl
      simp [hp] at ht
    have hq' := hrest q hqp
    simp only [Event.dispatchesBehind, decide_eq_true_eq]
    split_ifs at hq' ⊢
    · exact ((age_ok hq').2.2 hq).2.2
    · rw [hq']
  · have hbehind : e.dispatchesBehind q = false := by
      cases e <;> first | rfl | exact absurd ⟨_, _, rfl⟩ hd
    rw [hbehind]
    have hidle : ∀ c, s.cpu c ≠ .running q := fun c hc => by
      simp [(hI.running c q hc).1] at hq
    -- only a nudge leaves a RUNNABLE process RUNNABLE
    have hch := step_slot h q
    generalize t.table q = p' at hch ht
    cases hch with
    | nudge hn => obtain ⟨par, k, st, rfl, -⟩ := hn; rfl
    | alloc pid par hst => simp [hq] at hst
    | forkDone hst => simp [hq] at hst
    | forkFail hst => simp [hq] at hst
    | reap hst => simp [hq] at hst
    | boost c he hc => exact absurd hc (hidle c)
    | dispatch c he => exact absurd ⟨_, _, he⟩ hd
    | age c p he => exact absurd ⟨_, _, he⟩ hd
    | release c st par ch k he hc => exact absurd hc (hidle c)

/-- The level and the wait counter of `q` after any events through which it waits. -/
theorem waiting_run {s t : System} {es : List Event} {q : Slot} (hI : Inv s)
    (hq : (s.table q).state = .runnable) (h : Run (StayStep q) s es t) :
    (t.table q).levelWait =
      ageLevel^[es.countP (Event.dispatchesBehind q)] (s.table q).levelWait := by
  induction h with
  | nil s => rfl
  | @cons s u t e es he _ ih =>
    rw [ih (inv_step hI he.1) he.2, stayStep_levelWait hI hq he, List.countP_cons]
    split_ifs with hb
    · rw [Function.iterate_succ_apply]
    · rfl

/-! ### The counter -/

theorem ageLevel_iterate {l w : ℤ} {k : ℕ} (h : w + k < threshold l) :
    ageLevel^[k] (l, w) = (l, w + k) := by
  induction k with
  | zero => simp
  | succ k ih =>
    rw [Function.iterate_succ_apply', ih (by push_cast at h; omega), ageLevel]
    push_cast at h
    rw [if_neg (by simp only; omega)]
    simp [add_assoc]

/-- The threshold itself promotes. -/
theorem ageLevel_iterate_threshold {l w : ℤ} {k : ℕ} (hl : l < 3) (hw : w < threshold l)
    (h : w + k = threshold l) : ageLevel^[k] (l, w) = (l + 1, 0) := by
  obtain ⟨k, rfl⟩ : ∃ n, k = n + 1 := ⟨k - 1, by omega⟩
  push_cast at h
  rw [Function.iterate_succ_apply', ageLevel_iterate (by omega), ageLevel,
    if_pos ⟨by simp only; omega, hl⟩]

/-- A list has a prefix with any smaller number of hits. -/
theorem exists_prefix_countP {α : Type*} (p : α → Bool) {l : List α} {n : ℕ} (h : n ≤ l.countP p) :
    ∃ l₁ l₂, l = l₁ ++ l₂ ∧ l₁.countP p = n := by
  induction l using List.reverseRecOn with
  | nil => exact ⟨[], [], rfl, (Nat.le_zero.1 h).symm⟩
  | append_singleton l a ih =>
    rcases h.lt_or_eq with hlt | rfl
    · obtain ⟨l₁, l₂, rfl, hn⟩ := ih (by
        rw [List.countP_append, List.countP_singleton] at hlt
        split_ifs at hlt <;> omega)
      exact ⟨l₁, l₂ ++ [a], by simp, hn⟩
    · exact ⟨l ++ [a], [], by simp, rfl⟩

/-- **When a waiting process is promoted.** From a reachable state, while `q` waits at a level
below 3, it is promoted if and only if the wait ticks it starts with and the dispatches from slots
behind it reach the threshold of its level. -/
theorem promoted_iff {s t : System} {es : List Event} {q : Slot} (hs : Reached s)
    (hq : (s.table q).state = .runnable) (hl : (s.table q).priority < 3)
    (h : Run (StayStep q) s es t) :
    Promoted q s es ↔ threshold (s.table q).priority ≤
      (s.table q).waitTicks + es.countP (Event.dispatchesBehind q) := by
  have hI := reached_inv hs
  have hbelow := (hI.fair q).below hl
  constructor
  · rintro ⟨es₁, es₂, u, rfl, hu, hup⟩
    by_contra hlt
    rw [List.countP_append] at hlt
    push_cast at hlt
    -- before the threshold the level has not moved
    have hlw := waiting_run hI hq hu
    rw [Proc.levelWait, Proc.levelWait, ageLevel_iterate (by omega)] at hlw
    have := (Prod.mk.inj hlw).1
    omega
  · intro hle
    have hw := (hI.fair q).wait
    obtain ⟨n, hn⟩ : ∃ n : ℕ, (n : ℤ) = threshold (s.table q).priority - (s.table q).waitTicks :=
      ⟨(threshold (s.table q).priority - (s.table q).waitTicks).toNat, by omega⟩
    obtain ⟨es₁, es₂, rfl, hcount⟩ :=
      exists_prefix_countP (Event.dispatchesBehind q) (l := es) (n := n) (by omega)
    obtain ⟨u, hu, -⟩ := Run.append_iff.1 h
    refine ⟨es₁, es₂, u, rfl, hu, ?_⟩
    have hlw := waiting_run hI hq hu
    rw [hcount, Proc.levelWait, Proc.levelWait,
      ageLevel_iterate_threshold hl hbelow (by omega)] at hlw
    exact (Prod.mk.inj hlw).1

/-! ### A starving process -/

/-- No starvation: a process that waits at a level below 3 while the threshold of its level is
dispatched has been promoted. -/
def NoStarvation : Prop :=
  ∀ (s t : System) (es : List Event) (q : Slot), Reached s → (s.table q).state = .runnable →
    (s.table q).priority < 3 → Run (StayStep q) s es t →
    threshold (s.table q).priority ≤ es.countP Event.isDispatch → Promoted q s es

/-- `init` forks three children and sleeps; two of them sleep; the third uses up its allotment at
level 3 in eight turns; then the sleepers are woken. -/
def starvationSetup : List Event :=
  [.beginPass 0, .dispatch 0 0, .fork 0 1, .forkDone 1, .fork 0 2,
    .forkDone 2, .fork 0 3, .forkDone 3, .sleep 0 (.other 1),
    .dispatch 0 1, .sleep 0 (.other 1), .dispatch 0 2, .sleep 0 (.other 1)] ++
  (List.replicate 7 [.dispatch 0 3, .yield 0, .endPass 0, .beginPass 0]).flatten ++
  [.dispatch 0 3, .yield 0, .endPass 0, .wakeup (.other 1)]

/-- The three processes in front take turns for the twenty dispatches of level 2's threshold. -/
def starvationWindow : List Event :=
  (List.replicate 6 [.beginPass 0, .dispatch 0 0, .yield 0, .dispatch 0 1, .yield 0,
    .dispatch 0 2, .yield 0, .endPass 0]).flatten ++
  [.beginPass 0, .dispatch 0 0, .yield 0, .dispatch 0 1]

/-- One event of a window, checked. -/
def stayStep (q : Slot) (s : System) (e : Event) : Except Fault System := do
  let t ← step s e
  guard ((t.table q).state = .runnable)
  pure t

theorem stayStep_ok {q : Slot} {s t : System} {e : Event} (h : stayStep q s e = .ok t) :
    StayStep q s e t := by
  obtain ⟨u, hu, h⟩ := bind_ok.1 h
  obtain ⟨_, hg, h⟩ := bind_ok.1 h
  obtain rfl := pure_ok.1 h
  exact ⟨hu, guard_ok.1 hg⟩

/-- An executed event list is a run. -/
theorem run_of_foldlM {f : System → Event → Except Fault System}
    {R : System → Event → System → Prop}
    (hf : ∀ s e t, f s e = .ok t → R s e t) {es : List Event} {s t : System}
    (h : es.foldlM f s = .ok t) : Run R s es t := by
  induction es generalizing s with
  | nil => rw [foldlM_nil_ok.1 h]; exact .nil t
  | cons e es ih =>
    obtain ⟨u, hu, h⟩ := foldlM_cons_ok.1 h
    exact .cons (hf s e u hu) (ih h)

/-- Executing a list of events from boot, with a check of the state it leads to. -/
def bootCheck (check : System → Bool) (es : List Event) : Bool :=
  match es.foldlM step booted with
  | .error _ => false
  | .ok s => check s

/-- A check that succeeds is about a reachable state. -/
theorem reached_of_bootCheck {check : System → Bool} {es : List Event}
    (h : bootCheck check es = true) : ∃ s, Reached s ∧ check s = true := by
  unfold bootCheck at h
  cases hs : es.foldlM step booted with
  | error e => simp [hs] at h
  | ok s => exact ⟨s, ⟨booted, es, rfl, run_of_foldlM (fun _ _ _ h => h) hs⟩, by simpa [hs] using h⟩

/-- What is checked of the two parts of the run: process 3 waits at level 2, with no wait ticks. -/
def waitsAtLevelTwo (s : System) : Bool :=
  (s.table 3).state = .runnable ∧ (s.table 3).priority = 2 ∧ (s.table 3).waitTicks = 0

theorem starvation_checked : bootCheck (fun s =>
    waitsAtLevelTwo s && (starvationWindow.foldlM (stayStep 3) s).isOk) starvationSetup = true := by
  decide +kernel

/-- The run in which process 3 waits for twenty dispatches, all from slots in front of it. -/
theorem exists_starving_run : ∃ s t, Reached s ∧ (s.table 3).state = .runnable ∧
    (s.table 3).priority = 2 ∧ (s.table 3).waitTicks = 0 ∧
    Run (StayStep 3) s starvationWindow t := by
  obtain ⟨s, hs, h⟩ := reached_of_bootCheck starvation_checked
  simp only [Bool.and_eq_true, waitsAtLevelTwo, decide_eq_true_eq] at h
  obtain ⟨⟨h1, h2, h3⟩, h⟩ := h
  cases ht : starvationWindow.foldlM (stayStep 3) s with
  | error e => simp [ht, Except.isOk, Except.toBool] at h
  | ok t =>
    have hwindow : Run (StayStep 3) s starvationWindow t :=
      run_of_foldlM (fun _ _ _ => stayStep_ok) ht
    exact ⟨s, t, hs, h1, h2, h3, hwindow⟩

/-- Twenty dispatches go by and process 3 is still at level 2. -/
theorem not_noStarvation : ¬ NoStarvation := by
  intro hclaim
  obtain ⟨s, t, hs, hq, hl, hw, hr⟩ := exists_starving_run
  obtain ⟨es₁, es₂, u, hes, hu, hup⟩ := hclaim s t _ 3 hs hq (by rw [hl]; decide) hr (by
    rw [hl]; decide)
  have hnone : starvationWindow.countP (Event.dispatchesBehind 3) = 0 := by decide
  have hpre : es₁.countP (Event.dispatchesBehind 3) = 0 := by
    rw [hes, List.countP_append] at hnone
    omega
  have hlw := waiting_run (reached_inv hs) hq hu
  rw [hpre] at hlw
  have := (Prod.mk.inj hlw).1
  omega

/-- In that run the criterion says that process 3 is not promoted. -/
theorem promoted_iff_starving_run : ∃ s, Reached s ∧ ¬ Promoted 3 s starvationWindow := by
  obtain ⟨s, t, hs, hq, hl, hw, hr⟩ := exists_starving_run
  refine ⟨s, hs, ?_⟩
  rw [promoted_iff hs hq (by rw [hl]; decide) hr, hl, hw]
  decide

end OsProjects.Sched
