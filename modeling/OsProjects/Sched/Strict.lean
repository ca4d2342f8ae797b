import OsProjects.Sched.Budgets

/-!
# Promotions during a dispatch

The highest level is computed before the escalate loop, which can then raise a waiting process above
the dispatched one.  `strict_iff` says for which tables it does.  The promotion test is an equality;
no reachable state has passed it (`wait_lt_threshold`).
-/

namespace OsProjects.Sched

variable {t t' : Table} {p : Slot}

/-- No RUNNABLE process has a higher level than `p`. -/
def Strict (p : Slot) (t : Table) : Prop :=
  ∀ q, (t q).state = .runnable → (t q).priority ≤ (t p).priority

/-- The level of a waiting process after the dispatch of `p`. -/
theorem dispatch_priority (hd : dispatch p t = .ok t') {q : Slot} (hq : q ≠ p) :
    (t' q).state = (t q).state ∧
      (t' q).priority = if q < p ∧ Due (t q) then (t q).priority + 1 else (t q).priority := by
  obtain ⟨p₁, -, -, hrest⟩ := dispatch_ok hd
  have hstep := hrest q hq
  split at hstep
  · rename_i hlt
    generalize t' q = q' at hstep
    cases age_cases hstep with
    | skip hst => rw [if_neg fun h => hst h.2.1]; exact ⟨rfl, rfl⟩
    | wait _ hdue => rw [if_neg fun h => hdue h.2]; exact ⟨rfl, rfl⟩
    | promote hdue _ => rw [if_pos ⟨hlt, hdue⟩]; exact ⟨rfl, rfl⟩
  · rename_i hge
    rw [hstep, if_neg fun h => hge h.1]
    exact ⟨rfl, rfl⟩

/-- The dispatched process keeps its level. -/
theorem dispatch_self (hd : dispatch p t = .ok t') :
    (t' p).state = .running ∧ (t' p).priority = (t p).priority := by
  obtain ⟨p₁, hp₁, hp, -⟩ := dispatch_ok hd
  rw [hp]
  exact ⟨rfl, (charge_ok hp₁).1⟩

/-- **Strict priority.**  The dispatched process has the highest level when it starts to run, if and
only if no waiting process of its level in an earlier slot is due for its promotion. -/
theorem strict_iff (hl : ∀ q, 0 ≤ (t q).priority ∧ (t q).priority ≤ 3) (hp : Eligible t p) :
    ∃ t', dispatch p t = .ok t' ∧ (t' p).state = .running ∧
      (Strict p t' ↔ ¬∃ q < p, Due (t q) ∧ (t q).priority = (t p).priority) := by
  obtain ⟨t', hd⟩ := dispatch_total hl p
  obtain ⟨hrun, hself⟩ := dispatch_self hd
  have hmax := ((eligible_iff_top ⟨p, hp.1, (hl p).1⟩).1 hp).2
  refine ⟨t', hd, hrun, ?_, ?_⟩
  · rintro hstrict ⟨q, hlt, hdue, heq⟩
    obtain ⟨hst, hpri⟩ := dispatch_priority hd hlt.ne
    have hle := hstrict q (hst.trans hdue.1)
    rw [hpri, if_pos ⟨hlt, hdue⟩, hself] at hle
    omega
  · intro hno q hq
    have hne : q ≠ p := by
      rintro rfl
      rw [hrun] at hq
      cases hq
    obtain ⟨hst, hpri⟩ := dispatch_priority hd hne
    have hle := hmax q (hst.symm.trans hq)
    rw [hpri, hself]
    split
    · rename_i hdue
      have hlt := hle.lt_of_ne fun heq => hno ⟨q, hdue.1, hdue.2, heq⟩
      omega
    · exact hle

set_option maxRecDepth 20000

/-- The dispatch of a process behind one that has just had its turn, with a third of a lower level
waiting. -/
theorem strict_iff_turn : ∃ s t', Reached s ∧ (s.table 0).state = .runnable ∧
    (s.table 3).state = .runnable ∧ dispatch 1 s.table = .ok t' ∧ Strict 1 t' := by
  have hcheck : bootCheck (fun s => decide ((s.table 0).state = .runnable ∧
      (s.table 3).state = .runnable ∧ Eligible s.table 1 ∧ ¬Due (s.table 0)))
      (starvationSetup ++ [.beginPass 0, .dispatch 0 0, .yield 0]) = true := by decide
  obtain ⟨s, hs, h⟩ := reached_of_bootCheck hcheck
  obtain ⟨h0, h3, hel, hdue⟩ := of_decide_eq_true h
  obtain ⟨t', hd, -, hiff⟩ := strict_iff (fun q => ((reached_inv hs).fair q).level) hel
  refine ⟨s, t', hs, h0, h3, hd, hiff.2 ?_⟩
  rintro ⟨q, hq, hq', -⟩
  obtain rfl : q = 0 := Fin.ext (Nat.lt_one_iff.1 hq)
  exact hdue hq'

/-- Process 1 waits for the twentieth time at level 2, the level of the process that is dispatched
then. -/
theorem not_strict : ∃ s t', Reached s ∧
    (∀ q, 0 ≤ (s.table q).priority ∧ (s.table q).priority ≤ 3) ∧ Eligible s.table 4 ∧
    dispatch 4 s.table = .ok t' ∧ ¬Strict 4 t' := by
  have hcheck : bootCheck (fun s => decide (Eligible s.table 4 ∧ Due (s.table 0) ∧
      (s.table 0).priority = (s.table 4).priority))
      (promotionSetup ++ promotionWindow.dropLast) = true := by decide
  obtain ⟨s, hs, h⟩ := reached_of_bootCheck hcheck
  obtain ⟨hel, hdue, heq⟩ := of_decide_eq_true h
  have hlevel := fun q => ((reached_inv hs).fair q).level
  obtain ⟨t', hd⟩ := dispatch_total hlevel 4
  refine ⟨s, t', hs, hlevel, hel, hd, fun hstrict => ?_⟩
  obtain ⟨hst, hpri⟩ := dispatch_priority hd (q := 0) (by decide)
  have hle := hstrict 0 (hst.trans hdue.1)
  rw [hpri, if_pos ⟨by decide, hdue⟩, (dispatch_self hd).2] at hle
  omega

/-- **The promotion test is not passed over.**  Below level 3 the wait counter of a process stays
below the value for which the test looks. -/
theorem wait_lt_threshold {s : System} (hs : Reached s) {q : Slot}
    (hl : (s.table q).priority < 3) :
    ∃ ts, index timeSlice (s.table q).priority = .ok ts ∧ 0 ≤ (s.table q).waitTicks ∧
      (s.table q).waitTicks < 10 * ts := by
  have hfair := (reached_inv hs).fair q
  obtain ⟨ts, hts⟩ := index_isSome (a := timeSlice) (i := (s.table q).priority) (by
    show 0 ≤ (s.table q).priority ∧ (s.table q).priority < (4 : ℕ)
    have := hfair.level
    omega)
  have hbelow := hfair.below hl
  rw [threshold, (index_ok.1 hts).2] at hbelow
  exact ⟨ts, hts, hfair.wait, hbelow⟩

/-- A process waits at level 2. -/
theorem wait_lt_threshold_starving : ∃ s, Reached s ∧ (s.table 3).waitTicks < 20 := by
  obtain ⟨s, _, hs, -, hl, -⟩ := exists_starving_run
  obtain ⟨ts, hts, -, hlt⟩ := wait_lt_threshold hs (q := 3) (by rw [hl]; decide)
  rw [hl] at hts
  obtain rfl : ts = 2 := (Except.ok.inj hts).symm
  exact ⟨s, hs, hlt⟩

end OsProjects.Sched
