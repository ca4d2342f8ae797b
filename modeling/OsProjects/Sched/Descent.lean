import OsProjects.Sched.Budgets

/-!
# The way down

A process that is neither promoted nor boosted goes down the levels with its ticks: after `n`
dispatches its level, its remaining allotment and its tick counts are functions of `n`, whatever the
other processes do (`ticks_of_descent`).  It stays within the four levels for 8000056 ticks; with
the last of them `scheduler()` reads `time_slice[-1]` (`validLevels_iff`, `not_validLevels`).
-/

namespace OsProjects.Sched

/-! ### The closed form -/

/-- The level after `n` ticks. -/
def levelAfter (n : ℕ) : ℤ := if n < 8 then 3 else if n < 24 then 2 else if n < 56 then 1 else 0

/-- What remains of the allotment of this level. -/
def allotmentAfter (n : ℕ) : ℤ :=
  if n < 8 then 8 - n else if n < 24 then 24 - n else if n < 56 then 56 - n else 8000056 - n

/-- How many of `n` ticks are at level `l`. -/
def ticksAfter (n : ℕ) (l : ℤ) : ℤ :=
  if l = 3 then min n 8
  else if l = 2 then min (max (n - 8) 0) 16
  else if l = 1 then min (max (n - 24) 0) 32
  else if l = 0 then max (n - 56) 0
  else 0

/-- A tick counts at the level it is at. -/
theorem ticksAfter_succ (n : ℕ) (l : ℤ) :
    ticksAfter (n + 1) l = if l = levelAfter n then ticksAfter n l + 1 else ticksAfter n l := by
  unfold ticksAfter levelAfter
  push_cast
  split_ifs <;> omega

/-- A tick that is not the last of its allotment. -/
theorem after_succ_of_ne {n : ℕ} (h : allotmentAfter n - 1 ≠ 0) :
    levelAfter (n + 1) = levelAfter n ∧ allotmentAfter (n + 1) = allotmentAfter n - 1 := by
  unfold levelAfter allotmentAfter at *
  push_cast
  split_ifs at * <;> omega

/-- The last tick of an allotment leads to the full allotment one level below. -/
theorem after_succ_of_eq {n : ℕ} (h : allotmentAfter n - 1 = 0) (hl : 0 ≤ levelAfter n - 1) :
    levelAfter (n + 1) = levelAfter n - 1 ∧
      allotmentAfter (n + 1) = allotment (levelAfter n - 1) := by
  have hn : n = 7 ∨ n = 23 ∨ n = 55 := by
    unfold levelAfter allotmentAfter at *
    split_ifs at * <;> omega
  obtain rfl | rfl | rfl := hn <;> decide

/-! ### The descent -/

/-- A process after `n` dispatches: while it runs, the last of them has been charged but not
settled. -/
structure Descended (n : ℕ) (p : Proc) : Prop where
  ticks : ∀ l, p.ticks l = ticksAfter n l
  waiting : p.state ≠ .running → p.priority = levelAfter n ∧ p.sliceRemain = allotmentAfter n
  running : p.state = .running → ∃ m, n = m + 1 ∧ p.priority = levelAfter m ∧
    p.sliceRemain = allotmentAfter m - 1

/-- An event that neither promotes nor boosts process `q` nor frees its slot. -/
def DescentStep (q : Slot) (s : System) (e : Event) (t : System) : Prop :=
  Step s e t ∧ (t.table q).state ≠ .unused ∧ (∀ c, e = .boost c → s.cpu c ≠ .running q) ∧
    ∀ c p, e = .dispatch c p → (t.table q).priority ≤ (s.table q).priority

/-- The event is a dispatch of `q`. -/
def Event.dispatches (q : Slot) : Event → Bool
  | .dispatch _ p => p = q
  | _ => false

theorem Descended.congr {n : ℕ} {p p' : Proc} (h : Descended n p) (ht : p'.ticks = p.ticks)
    (hp : p'.priority = p.priority) (hs : p'.sliceRemain = p.sliceRemain)
    (hst : p'.state = .running ↔ p.state = .running) : Descended n p' := by
  refine ⟨fun l => ?_, fun hne => ?_, fun hrun => ?_⟩
  · rw [ht, h.ticks]
  · rw [hp, hs]
    exact h.waiting fun hrun => hne (hst.2 hrun)
  · rw [hp, hs]
    exact h.running (hst.1 hrun)

/-- Coming back from the `n + 1`st dispatch. -/
theorem Settled.descended {m : ℕ} {p p' : Proc} (h : Settled p p') (hst : p.state ≠ .running)
    (ht : ∀ l, p.ticks l = ticksAfter (m + 1) l) (hp : p.priority = levelAfter m)
    (hs : p.sliceRemain = allotmentAfter m - 1) : Descended (m + 1) p' := by
  cases h with
  | relegate h0 hl =>
    rw [hs] at h0
    rw [hp] at hl
    have hnext := after_succ_of_eq h0 hl.1
    refine ⟨ht, fun _ => ?_, fun hrun => absurd hrun hst⟩
    simp only [hp, hnext, and_self]
  | keep h0 _ =>
    rw [hs] at h0
    have hnext := after_succ_of_ne h0
    exact ⟨ht, fun _ => ⟨hp.trans hnext.1.symm, hs.trans hnext.2.symm⟩, fun hrun => absurd hrun hst⟩
  | newTurn h0 hl =>
    rw [hs] at h0
    have hnext := after_succ_of_ne h0
    exact ⟨ht, fun _ => ⟨hp.trans hnext.1.symm, hs.trans hnext.2.symm⟩, fun hrun => absurd hrun hst⟩

/-- One event of the descent. -/
theorem descentStep_descended {s t : System} {e : Event} {q : Slot} {n : ℕ} (hI : Inv s)
    (hq : (s.table q).state ≠ .unused) (h : DescentStep q s e t) (hn : Descended n (s.table q)) :
    Descended (if e.dispatches q then n + 1 else n) (t.table q) := by
  obtain ⟨he, hne, hboost, hprio⟩ := h
  by_cases hd : ∃ c, e = .dispatch c q
  · obtain ⟨c, rfl⟩ := hd
    obtain ⟨hel, -, p₁, hp₁, hp, -⟩ := step_dispatch he
    obtain ⟨hl, hs⟩ := hn.waiting (by simp [hel.1])
    obtain rfl := charge_eq hp₁
    rw [hp, if_pos (by simp [Event.dispatches])]
    refine ⟨fun l => ?_, fun hrun => absurd rfl hrun, fun _ => ⟨n, rfl, hl, ?_⟩⟩
    · rw [ticksAfter_succ, ← hl]
      simp only [hn.ticks]
    · simp only [hs]
  · have hfalse : e.dispatches q = false := by
      cases e with
      | dispatch c p => simpa [Event.dispatches] using fun hp : p = q => hd ⟨c, hp ▸ rfl⟩
      | _ => rfl
    rw [hfalse]
    have hch := step_slot he q
    generalize t.table q = q' at hch hne hprio
    cases hch with
    | nudge hnudge =>
      obtain ⟨par, k, st, rfl, hst⟩ := hnudge
      refine hn.congr rfl rfl rfl ?_
      rcases hst with rfl | ⟨hsl, rfl⟩
      · exact Iff.rfl
      · simp [hsl]
    | alloc pid par hst => exact absurd hst hq
    | forkDone hst => exact hn.congr rfl rfl rfl (by simp [hst])
    | forkFail hst => exact absurd rfl hne
    | reap hst => exact absurd rfl hne
    | boost c hb hc => exact absurd hc (hboost c hb)
    | dispatch c he' => exact absurd ⟨c, he'⟩ hd
    | age c p he' hlt hc ha =>
      cases age_cases ha with
      | skip => exact hn
      | wait hst => exact hn.congr rfl rfl rfl Iff.rfl
      | promote hdue hp =>
        have := hprio c p he'
        simp only at this
        omega
    | release c st par ch k hrel hc hst hs =>
      obtain ⟨m, rfl, hl, hslice⟩ := hn.running (hI.running c q hc).1
      refine (settle_cases hs).descended ?_ hn.ticks hl hslice
      rcases hst with rfl | rfl | rfl <;> simp

/-! ### Runs -/

/-- The process in slot `q` has just been allocated. -/
def Born (q : Slot) (s : System) : Prop :=
  q = initproc ∧ s = booted ∨ ∃ s₀ c, Reached s₀ ∧ Step s₀ (.fork c q) s

theorem Born.descended {q : Slot} {s : System} (h : Born q s) :
    Inv s ∧ (s.table q).state ≠ .unused ∧ Descended 0 (s.table q) := by
  have hzero : ∀ l, (0 : ℤ) = ticksAfter 0 l := by
    intro l
    unfold ticksAfter
    split_ifs <;> rfl
  rcases h with ⟨rfl, rfl⟩ | ⟨s₀, c, hs₀, h⟩
  · refine ⟨inv_booted, by simp [booted], ?_⟩
    exact ⟨hzero, fun _ => ⟨rfl, rfl⟩, fun hrun => by simp [booted] at hrun⟩
  · refine ⟨inv_step (reached_inv hs₀) h, ?_⟩
    obtain ⟨p, -, h⟩ := bind_ok.1 h
    obtain ⟨_, -, h⟩ := bind_ok.1 h
    obtain rfl := pure_ok.1 h
    dsimp only
    rw [Function.update_self]
    exact ⟨by simp [allocproc], hzero, fun _ => ⟨rfl, rfl⟩, fun hrun => by simp [allocproc] at hrun⟩

/-- A process after any events of its descent. -/
theorem descent_run {q : Slot} {s t : System} {es : List Event} (hs : Born q s)
    (h : Run (DescentStep q) s es t) :
    Descended (es.countP (Event.dispatches q)) (t.table q) := by
  obtain ⟨hI, hq, hn⟩ := hs.descended
  refine (h.trace_invariant (I := fun es t => Inv t ∧ (t.table q).state ≠ .unused ∧
    Descended (es.countP (Event.dispatches q)) (t.table q)) ⟨hI, hq, hn⟩ ?_).2.2
  rintro es s e t ⟨hI, hq, hn⟩ he
  refine ⟨inv_step hI he.1, he.2.1, ?_⟩
  have := descentStep_descended hI hq he hn
  rw [List.countP_append, List.countP_singleton]
  split_ifs at this ⊢ <;> exact this

/-- **Multi-level feedback.**  A process that is never promoted and never boosted, and is not
running, has after `n` dispatches the ticks and the level that follow from `n` alone. -/
theorem ticks_of_descent {q : Slot} {s t : System} {es : List Event} {n : ℕ} (hs : Born q s)
    (h : Run (DescentStep q) s es t) (hn : es.countP (Event.dispatches q) = n)
    (hret : (t.table q).state ≠ .running) :
    (t.table q).ticks 3 = min (n : ℤ) 8 ∧ (t.table q).ticks 2 = min (max ((n : ℤ) - 8) 0) 16 ∧
      (t.table q).ticks 1 = min (max ((n : ℤ) - 24) 0) 32 ∧
      (t.table q).ticks 0 = max ((n : ℤ) - 56) 0 ∧
      (t.table q).priority =
      if n < 8 then 3 else if n < 24 then 2 else if n < 56 then 1 else 0 := by
  obtain rfl := hn
  have hd := descent_run hs h
  refine ⟨?_, ?_, ?_, ?_, (hd.waiting hret).1⟩ <;> rw [hd.ticks] <;> rfl

/-- One event of a descent, checked. -/
def descentStep (q : Slot) (s : System) (e : Event) : Except Fault System := do
  let t ← step s e
  guard ((t.table q).state ≠ .unused ∧ (t.table q).priority ≤ (s.table q).priority ∧
    (match e with | .boost _ => false | _ => true) = true)
  pure t

theorem descentStep_ok {q : Slot} {s t : System} {e : Event} (h : descentStep q s e = .ok t) :
    DescentStep q s e t := by
  obtain ⟨u, hu, h⟩ := bind_ok.1 h
  obtain ⟨_, hg, h⟩ := bind_ok.1 h
  obtain rfl := pure_ok.1 h
  obtain ⟨hne, hle, hb⟩ := guard_ok.1 hg
  refine ⟨hu, hne, ?_, fun _ _ _ => hle⟩
  rintro c rfl
  cases hb

/-- Nine turns of process 1. -/
def nineTurns : List Event :=
  (List.replicate 8 [.beginPass 0, .dispatch 0 initproc, .yield 0, .endPass 0]).flatten ++
    [.beginPass 0, .dispatch 0 initproc, .yield 0]

set_option maxRecDepth 20000

/-- Nine turns of process 1 alone. -/
theorem ticks_of_descent_nineTurns : ∃ t : System, (t.table initproc).ticks 3 = 8 ∧
    (t.table initproc).ticks 2 = 1 ∧ (t.table initproc).priority = 2 := by
  have hcheck : (nineTurns.foldlM (descentStep initproc) booted).toOption.any
      (fun t => decide ((t.table initproc).state = .runnable)) = true := by decide
  cases ht : nineTurns.foldlM (descentStep initproc) booted with
  | error e =>
    rw [ht] at hcheck
    cases hcheck
  | ok t =>
    rw [ht] at hcheck
    have hrun := run_of_foldlM (fun _ _ _ => descentStep_ok) ht
    have h := ticks_of_descent (.inl ⟨rfl, rfl⟩) hrun rfl (by simp [of_decide_eq_true hcheck])
    refine ⟨t, h.1.trans ?_, h.2.1.trans ?_, h.2.2.2.2.trans ?_⟩ <;> decide

/-! ### The last tick -/

/-- The process that goes back to the scheduler in this event has used up its allotment at level
0. -/
def Exhausts (s : System) : Event → Prop
  | .yield c | .sleep c _ => s.locked = false ∧ ∃ p, s.cpu c = .running p ∧
      (s.table p).priority = 0 ∧ (s.table p).sliceRemain = 0
  | .exit c => s.locked = false ∧ ∃ p, s.cpu c = .running p ∧ p ≠ initproc ∧
      (s.table p).priority = 0 ∧ (s.table p).sliceRemain = 0
  | _ => False

/-- The levels are valid, and no use of a level as an index, in `getpinfo` or in the next event, is
out of bounds. -/
def ValidLevels (s : System) : Prop :=
  (∀ p, (s.table p).state ≠ .unused → 0 ≤ (s.table p).priority ∧ (s.table p).priority ≤ 3) ∧
    (∀ p, ∃ row, getpinfo (s.table p) = .ok row) ∧ ∀ e, step s e ≠ .error .outOfBounds

theorem guard_error {b : Prop} [Decidable b] {f : Fault} (h : guard b = .error f) :
    f = .disabled := by
  unfold guard at h
  split at h
  · cases h
  · exact (Except.error.inj h).symm

theorem current_error {s : System} {c : ℕ} {f : Fault} (h : s.current c = .error f) :
    f = .disabled := by
  unfold System.current at h
  split at h
  · cases h
  · exact (Except.error.inj h).symm

/-- Coming back fails only after the last tick of level 0. -/
theorem settle_error_iff {p : Proc} (hl : 0 ≤ p.priority ∧ p.priority ≤ 3) {f : Fault} :
    settle p = .error f ↔ f = .outOfBounds ∧ p.priority = 0 ∧ p.sliceRemain = 0 := by
  unfold settle
  split
  · rename_i hs
    rcases hl.1.eq_or_lt with h0 | h0
    · have herr : index timeSlice (p.priority - 1) = .error .outOfBounds :=
        if_neg (by omega)
      dsimp only
      rw [herr, error_bind]
      constructor
      · intro h
        exact ⟨(Except.error.inj h).symm, h0.symm, hs⟩
      · rintro ⟨rfl, -⟩
        rfl
    · have hb : 0 ≤ p.priority - 1 ∧ p.priority - 1 < (4 : ℕ) := by omega
      obtain ⟨tick, htick⟩ := index_isSome (a := timeSlice) hb
      obtain ⟨slice, hslice⟩ := index_isSome (a := slices) hb
      dsimp only
      rw [htick, ok_bind, hslice, ok_bind]
      simp [pure, Except.pure, h0.ne']
  · rename_i hs
    split
    · simp [hs]
    · obtain ⟨tick, htick⟩ := index_isSome (a := timeSlice) (i := p.priority) (by
        show 0 ≤ p.priority ∧ p.priority < (4 : ℕ)
        omega)
      rw [htick, ok_bind]
      simp [pure, Except.pure, hs]

theorem sched_error_iff {s : System} {c : ℕ} {p : Slot} {t : Table} {f : Fault}
    (hl : 0 ≤ (t p).priority ∧ (t p).priority ≤ 3) :
    s.sched c p t = .error f ↔ f = .outOfBounds ∧ (t p).priority = 0 ∧ (t p).sliceRemain = 0 := by
  rw [← settle_error_iff hl, System.sched, bind_error]
  simp [pure, Except.pure]

/-- The level and the allotment of an exiting process are not changed by `exit`. -/
theorem exitProc_self (p : Slot) (t : Table) :
    (exitProc p t p).priority = (t p).priority ∧ (exitProc p t p).sliceRemain =
    (t p).sliceRemain := by
  obtain ⟨u, hu, hx⟩ := exitProc_nudged p t
  obtain ⟨par, k, st, hp, -⟩ := hu p
  rw [hx, Function.update_self, hp]
  exact ⟨rfl, rfl⟩

theorem boostproc_total {p : Proc} (hl : 0 ≤ p.priority ∧ p.priority ≤ 3) :
    ∃ p', boostproc p = .ok p' := by
  unfold boostproc
  split
  · have hb : 0 ≤ p.priority + 1 ∧ p.priority + 1 < (4 : ℕ) := by omega
    obtain ⟨slice, hslice⟩ := index_isSome (a := slices) hb
    obtain ⟨tick, htick⟩ := index_isSome (a := timeSlice) hb
    rw [hslice, ok_bind, htick, ok_bind]
    exact ⟨_, rfl⟩
  · exact ⟨p, rfl⟩

/-- **When an index is out of bounds.** -/
theorem step_outOfBounds_iff {s : System} (hs : Consistent s) {e : Event} :
    step s e = .error .outOfBounds ↔ Exhausts s e := by
  have hguard : ∀ {b : Prop} [Decidable b], guard b ≠ .error .outOfBounds := fun h => by
    simpa using guard_error h
  cases e with
  | beginPass c => simp [step, bind_error, hguard, Exhausts, pure, Except.pure]
  | dispatch c p =>
    simp only [step, Exhausts, iff_false]
    split
    · obtain ⟨t', ht'⟩ := dispatch_total hs.level p
      simp [bind_error, hguard, ht', pure, Except.pure]
    · simp
  | endPass c =>
    simp only [step, Exhausts, iff_false]
    split
    · simp [bind_error, hguard, pure, Except.pure]
    · simp
  | yield c | sleep c chan =>
    simp only [step, bind_error, current_ok, hguard, guard_ok, false_or, Exhausts]
    constructor
    · rintro (h | ⟨p, hp, -, hfree, h⟩)
      · exact absurd (current_error h) (by simp)
      · have hx := (sched_error_iff (by simpa using hs.level p)).1 h
        exact ⟨hfree, p, hp, by simpa using hx.2⟩
    · rintro ⟨hfree, p, hp, hx⟩
      exact .inr ⟨p, hp, (), hfree,
        (sched_error_iff (by simpa using hs.level p)).2 ⟨rfl, by simpa using hx⟩⟩
  | exit c =>
    simp only [step, bind_error, current_ok, hguard, guard_ok, false_or, Exhausts]
    constructor
    · rintro (h | ⟨p, hp, -, ⟨hfree, hinit⟩, h⟩)
      · exact absurd (current_error h) (by simp)
      · have hx := (sched_error_iff (by rw [(exitProc_self p s.table).1]; exact hs.level p)).1 h
        rw [(exitProc_self p s.table).1, (exitProc_self p s.table).2] at hx
        exact ⟨hfree, p, hp, hinit, hx.2⟩
    · rintro ⟨hfree, p, hp, hinit, hx⟩
      refine .inr ⟨p, hp, (), ⟨hfree, hinit⟩, (sched_error_iff ?_).2 ⟨rfl, ?_⟩⟩
      · rw [(exitProc_self p s.table).1]
        exact hs.level p
      · rw [(exitProc_self p s.table).1, (exitProc_self p s.table).2]
        exact hx
  | wait c child | fork c child =>
    simp only [step, bind_error, hguard, Exhausts, pure, Except.pure, iff_false]
    rintro (h | ⟨p, -, h⟩)
    · exact absurd (current_error h) (by simp)
    · simp at h
  | forkDone child | forkFail child | wakeup chan =>
    simp [step, bind_error, hguard, Exhausts, pure, Except.pure]
  | boost c =>
    simp only [step, bind_error, Exhausts, pure, Except.pure, iff_false]
    rintro (h | ⟨p, -, h | ⟨_, -, h⟩⟩)
    · exact absurd (current_error h) (by simp)
    · obtain ⟨p', hp'⟩ := boostproc_total (hs.level p)
      simp [hp'] at h
    · cases h
  | kill pid =>
    simp only [step, Exhausts, iff_false]
    split
    · simp [bind_error, hguard, pure, Except.pure]
    · simp

/-- Process 1 is the only one and has had `n` turns; its CPU scans the table. -/
structure Solo (n : ℕ) (s : System) : Prop where
  reached : Reached s
  scanning : ∃ i, s.cpu 0 = .scan i
  alone : ∀ q, q ≠ initproc → (s.table q).state = .unused
  runnable : (s.table initproc).state = .runnable
  descended : Descended n (s.table initproc)

/-- Its next turn begins. -/
theorem Solo.dispatch {n : ℕ} {s : System} (h : Solo n s) : ∃ t, Reached t ∧
    t.cpu 0 = .running initproc ∧ t.locked = false ∧
    (∀ q, q ≠ initproc → (t.table q).state = .unused) ∧
    (t.table initproc).state = .running ∧ Descended (n + 1) (t.table initproc) := by
  obtain ⟨i, hi⟩ := h.scanning
  obtain ⟨es, u, q, t, -, hrun, htable, hd⟩ :=
    dispatch_within_two_passes (consistent_reached h.reached) hi ⟨initproc, h.runnable⟩
  have hu : Reached u := h.reached.run (hrun.mono fun _ _ _ he => he.1)
  obtain ⟨hel, hcpu, p₁, hp₁, hp, hrest⟩ := step_dispatch hd
  obtain rfl : q = initproc := by
    by_contra hq
    have := hel.1
    rw [htable, h.alone q hq] at this
    cases this
  have hstep : DescentStep initproc u (.dispatch 0 initproc) t :=
    ⟨hd, by simp [hp], by simp, fun c p hcp => by
      rw [hp]
      exact (charge_ok hp₁).1.le⟩
  refine ⟨t, hu.tail hd, by rw [hcpu, Function.update_self], ?_, fun q hq => ?_, by rw [hp], ?_⟩
  · have hl := step_lock hd
    cases hl with
    | same hne => exact absurd rfl (hne 0 initproc)
    | dispatch _ _ _ _ _ _ hl => exact hl
    | release _ _ _ he => exact he.elim
  · have hq' := hrest q hq
    rw [if_neg (by simp [initproc]), htable] at hq'
    rw [hq']
    exact h.alone q hq
  · have hdesc := h.descended
    rw [← htable] at hdesc
    have := descentStep_descended (reached_inv hu) (by rw [htable]; simp [h.runnable]) hstep hdesc
    rwa [if_pos (by simp [Event.dispatches])] at this

/-- Its turn ends, unless it was the last tick of level 0. -/
theorem Solo.next {n : ℕ} {s : System} (h : Solo n s) (hn : n + 1 < 8000056) :
    ∃ t, Solo (n + 1) t := by
  obtain ⟨u, hu, hcpu, hfree, halone, hst, hdesc⟩ := h.dispatch
  obtain ⟨m, hm, hl, hs⟩ := hdesc.running hst
  obtain rfl : n = m := by omega
  have hc := consistent_reached hu
  have hcurrent : u.current 0 = .ok initproc := current_ok.2 hcpu
  have hg : guard (u.locked = false) = .ok () := guard_ok.2 hfree
  cases hstep : step u (.yield 0) with
  | error f =>
    simp only [step, hcurrent, ok_bind, hg] at hstep
    have hx := (sched_error_iff (by simpa using hc.level initproc)).1 hstep
    simp only [Function.update_self, hl, hs] at hx
    unfold levelAfter allotmentAfter at hx
    split_ifs at hx <;> omega
  | ok t =>
    have hr := release_returned hcpu (e := .yield 0) rfl hstep
    have hrunnable : (t.table initproc).state = .runnable := by
      simp only [step, hcurrent, ok_bind, hg] at hstep
      obtain ⟨q', stay, hs', ht, -⟩ := sched_lock hstep
      rw [Function.update_self] at hs'
      rw [ht, Function.update_self, (settle_ok hs').1]
    have hdesc' := descentStep_descended (reached_inv hu) (by simp [hst])
      (t := t) (e := .yield 0) ⟨hstep, by simp [hrunnable], by simp, by simp⟩ hdesc
    refine ⟨t, hu.tail hstep, ⟨_, by rw [hr.cpu, Function.update_self]⟩, fun q hq => ?_, hrunnable,
      by simpa [Event.dispatches] using hdesc'⟩
    obtain ⟨par, k, st, hq', hst'⟩ := hr.others q hq
    rw [hq']
    rcases hst' with rfl | ⟨hsl, -⟩
    · exact halone q hq
    · simp [halone q hq] at hsl

/-- Process 1 alone has any number of turns below the limit. -/
theorem exists_solo (n : ℕ) (hn : n < 8000056) : ∃ s, Solo n s := by
  induction n with
  | zero =>
    have hbegin : Step booted (.beginPass 0)
        { booted with cpu := Function.update booted.cpu 0 (.scan 0), locked := true } := by
      simp [Step, step, booted, guard, pure, Except.pure]
    have hreached : Reached _ := ⟨booted, _, rfl, Run.single_iff.2 hbegin⟩
    refine ⟨_, hreached, ⟨0, by simp⟩, fun q hq => ?_, ?_, ?_⟩
    · simp [booted, hq, Proc.zero]
    · simp [booted]
    · exact (Born.descended (q := initproc) (.inl ⟨rfl, rfl⟩)).2.2
  | succ n ih =>
    obtain ⟨s, hs⟩ := ih (by omega)
    exact hs.next hn

/-- The last tick of level 0, after which `time_slice[-1]` is read. -/
theorem exists_exhausts : ∃ s, Reached s ∧ Exhausts s (.yield 0) := by
  obtain ⟨s, hs⟩ := exists_solo 8000055 (by omega)
  obtain ⟨u, hu, hcpu, hfree, -, hst, hdesc⟩ := hs.dispatch
  obtain ⟨m, hm, hl, hslice⟩ := hdesc.running hst
  obtain rfl : m = 8000055 := by omega
  refine ⟨u, hu, hfree, initproc, hcpu, ?_, ?_⟩
  · rw [hl, levelAfter, if_neg (by omega), if_neg (by omega), if_neg (by omega)]
  · rw [hslice, allotmentAfter, if_neg (by omega), if_neg (by omega), if_neg (by omega)]
    norm_num

end OsProjects.Sched
