import OsProjects.Sched.Select

/-!
# Budgets

The time slice and the allotment of a level, and the five places that reset them: allocation, aging,
relegation, the end of a turn, `boostproc`.  Aging takes the new budgets of the promoted process
from the level of the dispatched one, `slices[p->priority]`, which is right only if that is the
level the other process is promoted to (`promoted_budget_iff`); in the runs in which it always is,
every waiting process stays within the budgets of its level (`matchStep_run_iff`).
-/

namespace OsProjects.Sched

/-- `time_slice[l]`. -/
def turn (l : ℤ) : ℤ := timeSlice.getD l.toNat 0

/-- `slices[l]`. -/
def allotment (l : ℤ) : ℤ := slices.getD l.toNat 0

theorem turn_pos {l : ℤ} (h : 0 ≤ l ∧ l ≤ 3) : 1 ≤ turn l := by
  obtain rfl | rfl | rfl | rfl : l = 0 ∨ l = 1 ∨ l = 2 ∨ l = 3 := by omega
  all_goals decide

theorem allotment_pos {l : ℤ} (h : 0 ≤ l ∧ l ≤ 3) : 1 ≤ allotment l := by
  obtain rfl | rfl | rfl | rfl : l = 0 ∨ l = 1 ∨ l = 2 ∨ l = 3 := by omega
  all_goals decide

/-- Different levels have different allotments. -/
theorem allotment_inj {k l : ℤ} (hk : 0 ≤ k ∧ k ≤ 3) (hl : 0 ≤ l ∧ l ≤ 3)
    (h : allotment k = allotment l) : k = l := by
  obtain rfl | rfl | rfl | rfl : k = 0 ∨ k = 1 ∨ k = 2 ∨ k = 3 := by omega
  all_goals
    obtain rfl | rfl | rfl | rfl : l = 0 ∨ l = 1 ∨ l = 2 ∨ l = 3 := by omega
    all_goals first | rfl | exact absurd h (by decide)

/-! ### What each update does -/

/-- The wait tick of the next aging promotes the process. -/
def Due (p : Proc) : Prop :=
  p.state = .runnable ∧ p.waitTicks + 1 = threshold p.priority ∧ p.priority < 3

instance (p : Proc) : Decidable (Due p) := inferInstanceAs (Decidable (_ ∧ _))

/-- What aging during a dispatch of `p` makes of `pp`. -/
inductive Aged (p pp : Proc) : Proc → Prop
  | skip (h : pp.state ≠ .runnable) : Aged p pp pp
  | wait (h : pp.state = .runnable) (hd : ¬Due pp) :
      Aged p pp { pp with waitTicks := pp.waitTicks + 1 }
  | promote (h : Due pp) (hp : 0 ≤ p.priority ∧ p.priority ≤ 3) :
      Aged p pp { pp with
        priority := pp.priority + 1, waitTicks := 0, sliceRemain := allotment p.priority
        tickRemain := turn p.priority }

theorem age_cases {p pp pp' : Proc} (h : age p pp = .ok pp') : Aged p pp pp' := by
  unfold age at h
  split at h
  · rename_i hst
    obtain rfl := Except.ok.inj h
    exact .skip hst
  · rename_i hst
    rw [not_not] at hst
    obtain ⟨ts, hts, h⟩ := bind_ok.1 h
    obtain ⟨-, rfl⟩ := index_ok.1 hts
    split at h
    · rename_i hth
      obtain ⟨slice, hslice, h⟩ := bind_ok.1 h
      obtain ⟨tick, htick, h⟩ := bind_ok.1 h
      obtain rfl := pure_ok.1 h
      obtain ⟨⟨h0, h4⟩, rfl⟩ := index_ok.1 hslice
      obtain ⟨-, rfl⟩ := index_ok.1 htick
      exact .promote ⟨hst, hth⟩ ⟨h0, by simp [slices] at h4; omega⟩
    · rename_i hth
      obtain rfl := pure_ok.1 h
      exact .wait hst fun hd => hth hd.2

/-- What coming back makes of the budgets. -/
inductive Settled (p : Proc) : Proc → Prop
  | relegate (h : p.sliceRemain = 0) (hl : 0 ≤ p.priority - 1 ∧ p.priority - 1 ≤ 3) :
      Settled p { p with
        priority := p.priority - 1, tickRemain := turn (p.priority - 1)
        sliceRemain := allotment (p.priority - 1) }
  | keep (h : p.sliceRemain ≠ 0) (ht : p.tickRemain ≠ 0) : Settled p p
  | newTurn (h : p.sliceRemain ≠ 0) (hl : 0 ≤ p.priority ∧ p.priority ≤ 3) :
      Settled p { p with tickRemain := turn p.priority }

theorem settle_cases {p p' : Proc} {stay : Bool} (h : settle p = .ok (p', stay)) :
    Settled p p' := by
  unfold settle at h
  split at h
  · rename_i hs
    obtain ⟨tick, htick, h⟩ := bind_ok.1 h
    obtain ⟨slice, hslice, h⟩ := bind_ok.1 h
    obtain ⟨rfl, -⟩ := Prod.mk.inj (pure_ok.1 h)
    obtain ⟨⟨h0, h4⟩, rfl⟩ := index_ok.1 htick
    obtain ⟨-, rfl⟩ := index_ok.1 hslice
    exact .relegate hs ⟨h0, by simp [timeSlice] at h4; omega⟩
  · rename_i hs
    split at h
    · obtain ⟨rfl, -⟩ := Prod.mk.inj (Except.ok.inj h)
      exact .keep hs ‹_›
    · obtain ⟨tick, htick, h⟩ := bind_ok.1 h
      obtain ⟨rfl, -⟩ := Prod.mk.inj (pure_ok.1 h)
      obtain ⟨⟨h0, h4⟩, rfl⟩ := index_ok.1 htick
      exact .newTurn hs ⟨h0, by simp [timeSlice] at h4; omega⟩

/-- What `boostproc` makes of the calling process. -/
inductive Boosted (p : Proc) : Proc → Prop
  | same (h : p.priority = 3) : Boosted p p
  | up (hl : 0 ≤ p.priority + 1 ∧ p.priority + 1 ≤ 3) :
      Boosted p { p with
        priority := p.priority + 1, waitTicks := 0, sliceRemain := allotment (p.priority + 1)
        tickRemain := turn (p.priority + 1) }

theorem boostproc_cases {p p' : Proc} (h : boostproc p = .ok p') : Boosted p p' := by
  unfold boostproc at h
  split at h
  · obtain ⟨slice, hslice, h⟩ := bind_ok.1 h
    obtain ⟨tick, htick, h⟩ := bind_ok.1 h
    obtain rfl := pure_ok.1 h
    obtain ⟨⟨h0, h4⟩, rfl⟩ := index_ok.1 hslice
    obtain ⟨-, rfl⟩ := index_ok.1 htick
    exact .up ⟨h0, by simp [slices] at h4; omega⟩
  · rename_i h3
    obtain rfl := Except.ok.inj h
    exact .same (not_not.1 h3)

theorem charge_eq {p p' : Proc} (h : charge p = .ok p') :
    p' = { p with
      tickRemain := p.tickRemain - 1, waitTicks := 0
      ticks := fun i => if i = p.priority then p.ticks i + 1 else p.ticks i
      sliceRemain := p.sliceRemain - 1 } := by
  unfold charge at h
  split at h
  · exact (Except.ok.inj h).symm
  · cases h

/-! ### Budgets and levels -/

/-- The budgets are those of the process's own level, and not used up. -/
structure Matches (p : Proc) : Prop where
  tick : 1 ≤ p.tickRemain ∧ p.tickRemain ≤ turn p.priority
  slice : 1 ≤ p.sliceRemain ∧ p.sliceRemain ≤ allotment p.priority

/-- The invariant: a running process may have used up what it was dispatched with. -/
structure Budgeted (p : Proc) : Prop where
  tick : 0 ≤ p.tickRemain ∧ p.tickRemain ≤ turn p.priority
  slice : 0 ≤ p.sliceRemain ∧ p.sliceRemain ≤ allotment p.priority
  waiting : p.state ≠ .running → Matches p

theorem Matches.budgeted {p : Proc} (h : Matches p) : Budgeted p :=
  ⟨⟨by have := h.tick; omega, h.tick.2⟩, ⟨by have := h.slice; omega, h.slice.2⟩, fun _ => h⟩

/-- Full budgets. -/
theorem matches_full {p : Proc} (hl : 0 ≤ p.priority ∧ p.priority ≤ 3)
    (ht : p.tickRemain = turn p.priority) (hs : p.sliceRemain = allotment p.priority) :
    Matches p :=
  ⟨⟨ht ▸ turn_pos hl, ht.le⟩, ⟨hs ▸ allotment_pos hl, hs.le⟩⟩

/-- Coming back leaves a process whose budgets match its level. -/
theorem Settled.matches {p p' : Proc} (h : Settled p p')
    (ht : 0 ≤ p.tickRemain ∧ p.tickRemain ≤ turn p.priority)
    (hs : 0 ≤ p.sliceRemain ∧ p.sliceRemain ≤ allotment p.priority) : Matches p' := by
  cases h with
  | relegate h hl => exact matches_full hl rfl rfl
  | keep h ht' => exact ⟨⟨by omega, ht.2⟩, ⟨by omega, hs.2⟩⟩
  | newTurn h hl => exact ⟨⟨turn_pos hl, le_rfl⟩, ⟨by simp only; omega, hs.2⟩⟩

/-- A dispatch promotes a waiting process only to its own level. -/
def PromotesToOwnLevel (s : System) : Event → Prop
  | .dispatch _ p => ∀ q < p, Due (s.table q) → (s.table p).priority = (s.table q).priority + 1
  | _ => True

/-- An event that promotes waiting processes to its own level only keeps all budgets. -/
theorem Change.budgeted {s : System} {e : Event} {q : Slot} {p' : Proc} (hI : Inv s)
    (hb : ∀ q, (s.table q).state ≠ .unused → Budgeted (s.table q))
    (hown : PromotesToOwnLevel s e) (h : Change s e q p') (hp' : p'.state ≠ .unused) :
    Budgeted p' := by
  cases h with
  | nudge h =>
    obtain ⟨par, k, st, rfl, hst⟩ := h
    have hq : Budgeted (s.table q) := hb q fun hu => by
      rcases hst with rfl | ⟨hsl, -⟩
      · exact hp' hu
      · simp [hu] at hsl
    refine ⟨hq.tick, hq.slice, fun hrun => ?_⟩
    have hm := hq.waiting fun h => by
      rcases hst with rfl | ⟨hsl, -⟩
      · exact hrun h
      · simp [h] at hsl
    exact ⟨hm.tick, hm.slice⟩
  | alloc pid par h =>
    exact (matches_full (by simp [allocproc]) rfl rfl).budgeted
  | forkDone h =>
    have hm := (hb q (by simp [h])).waiting (by simp [h])
    exact Matches.budgeted ⟨hm.tick, hm.slice⟩
  | forkFail h => simp at hp'
  | reap h => exact absurd rfl hp'
  | boost c he h hb' =>
    have hq := hb q (by simp [(hI.running c q h).1])
    cases boostproc_cases hb' with
    | same => exact hq
    | up hl => exact (matches_full hl rfl rfl).budgeted
  | dispatch c he hel hc =>
    have hm := (hb q (by simp [hel.1])).waiting (by simp [hel.1])
    obtain rfl := charge_eq hc
    have ht := hm.tick
    have hs := hm.slice
    exact ⟨by simp only; omega, by simp only; omega, fun h => absurd rfl h⟩
  | age c p he hlt hc ha =>
    obtain rfl := charge_eq hc
    cases age_cases ha with
    | skip h => exact hb q hp'
    | wait h hd =>
      have hm := (hb q (by simp [h])).waiting (by simp [h])
      exact Matches.budgeted ⟨hm.tick, hm.slice⟩
    | promote h hl =>
      subst he
      have heq := hown q hlt h
      have hlq := (hI.fair q).level
      have h3 := h.2.2
      refine (matches_full ?_ ?_ ?_).budgeted
      · simp only; omega
      · simp only [heq]
      · simp only [heq]
  | release c st par ch k he h hst hs =>
    have hq := hb q (by simp [(hI.running c q h).1])
    exact ((settle_cases hs).matches hq.tick hq.slice).budgeted

theorem budgeted_booted : ∀ q, (booted.table q).state ≠ .unused → Budgeted (booted.table q) := by
  intro q hq
  by_cases h : q = initproc
  · subst h
    exact (matches_full (by simp [booted, allocproc]) rfl rfl).budgeted
  · simp [booted, h, Proc.zero] at hq

/-! ### Runs -/

/-- Process `q`, at a higher level than before, has the time slice and the allotment of this
level. -/
def FullAfterPromotion (s t : System) (q : Slot) : Prop :=
  (s.table q).priority < (t.table q).priority →
    (t.table q).tickRemain = turn (t.table q).priority ∧
      (t.table q).sliceRemain = allotment (t.table q).priority

/-- An event after which the budgets of all waiting processes match their levels; a dispatch gives
the processes it promotes full budgets. -/
def MatchStep (s : System) (e : Event) (t : System) : Prop :=
  Step s e t ∧
    (∀ q, (t.table q).state ≠ .unused → (t.table q).state ≠ .running → Matches (t.table q)) ∧
    ∀ c p, e = .dispatch c p → ∀ q, FullAfterPromotion s t q

/-- An event that promotes waiting processes to its own level only. -/
def OwnLevelStep (s : System) (e : Event) (t : System) : Prop :=
  Step s e t ∧ PromotesToOwnLevel s e

/-- A promoted process gets full budgets if and only if the dispatched process is at the level it is
promoted to. -/
theorem promoted_budget_iff {s t : System} {c : ℕ} {p : Slot} (hI : Inv s)
    (h : Step s (.dispatch c p) t) :
    (∀ q, FullAfterPromotion s t q) ↔ PromotesToOwnLevel s (.dispatch c p) := by
  obtain ⟨hel, -, p₁, hp₁, hp, hrest⟩ := step_dispatch h
  have hp₁' : p₁.priority = (s.table p).priority := (charge_ok hp₁).1
  have haged : ∀ q < p, Aged p₁ (s.table q) (t.table q) := by
    intro q hq
    have := hrest q hq.ne
    rw [if_pos hq] at this
    exact age_cases this
  constructor
  · intro hfull q hq hdue
    have hl := (hI.fair q).level
    have h3 := hdue.2.2
    have hf : (s.table q).priority < (t.table q).priority → _ := hfull q
    have hch := haged q hq
    generalize t.table q = q' at hch hf
    cases hch with
    | skip hst => exact absurd hdue.1 hst
    | wait hst hd => exact absurd hdue hd
    | promote _ hlp =>
      have hslice : allotment p₁.priority = allotment ((s.table q).priority + 1) :=
        (hf (by simp)).2
      rw [← hp₁']
      exact allotment_inj hlp (by omega) hslice
  · intro hown q hlt
    rcases lt_trichotomy q p with hq | rfl | hq
    · have hch := haged q hq
      generalize t.table q = q' at hch hlt
      cases hch with
      | skip hst => exact absurd hlt (lt_irrefl _)
      | wait hst hd => exact absurd hlt (lt_irrefl _)
      | promote hdue hlp =>
        have heq : p₁.priority = (s.table q).priority + 1 := hp₁'.trans (hown q hq hdue)
        simp only [heq, and_self]
    · rw [hp] at hlt
      simp only [hp₁'] at hlt
      exact absurd hlt (lt_irrefl _)
    · have hsame := hrest q hq.ne'
      rw [if_neg (not_lt.2 hq.le)] at hsame
      rw [hsame] at hlt
      exact absurd hlt (lt_irrefl _)

/-- `init` forks four children; three of them sleep; `init` and the fourth use up their allotments
at level 3, `init` first; then the sleepers are woken. -/
def promotionSetup : List Event :=
  [.beginPass 0, .dispatch 0 0, .fork 0 1, .forkDone 1, .fork 0 2, .forkDone 2, .fork 0 3,
    .forkDone 3, .fork 0 4, .forkDone 4, .yield 0, .dispatch 0 1, .sleep 0 (.other 1),
    .dispatch 0 2, .sleep 0 (.other 1), .dispatch 0 3, .sleep 0 (.other 1)] ++
  (List.replicate 7 [.dispatch 0 4, .yield 0, .endPass 0, .beginPass 0, .dispatch 0 0,
    .yield 0]).flatten ++
  [.dispatch 0 4, .yield 0, .endPass 0, .wakeup (.other 1)]

/-- The sleepers take eighteen turns at level 3, during which `init` waits at level 2, and sleep
again; the twentieth dispatch since the last one of `init` is one of a process at level 2. -/
def promotionWindow : List Event :=
  (List.replicate 5 [.beginPass 0, .dispatch 0 1, .yield 0, .dispatch 0 2, .yield 0, .dispatch 0 3,
    .yield 0, .endPass 0]).flatten ++
  [.beginPass 0, .dispatch 0 1, .sleep 0 (.other 1), .dispatch 0 2, .sleep 0 (.other 1),
    .dispatch 0 3, .sleep 0 (.other 1), .dispatch 0 4]

end OsProjects.Sched
