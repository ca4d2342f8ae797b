import OsProjects.Sched.Aging

/-!
# Which process runs next

The scan of `scheduler()`, with its maximum recomputed at every slot and its `p--`, chooses the
process that a cyclic round robin over the processes of the highest level chooses, as long as the
levels that it meets are levels (`next_dispatch_iff`).  `roundRobin` is the specification: it knows
nothing of passes.
-/

namespace OsProjects.Sched

variable {t : Table} {p q : Slot} {i : ℕ}

/-! ### The highest level -/

theorem foldl_height (l : List Slot) (m : ℤ) :
    m ≤ l.foldl (fun max p =>
        if (t p).state = .runnable ∧ (t p).priority > max then (t p).priority else max) m ∧
      (∀ p ∈ l, (t p).state = .runnable → (t p).priority ≤ l.foldl (fun max p =>
        if (t p).state = .runnable ∧ (t p).priority > max then (t p).priority else max) m) ∧
      (l.foldl (fun max p =>
        if (t p).state = .runnable ∧ (t p).priority > max then (t p).priority else max) m = m ∨
        ∃ p ∈ l, (t p).state = .runnable ∧ (t p).priority = l.foldl (fun max p =>
          if (t p).state = .runnable ∧ (t p).priority > max then (t p).priority else max) m) := by
  induction l generalizing m with
  | nil => simp
  | cons a l ih =>
    rw [List.foldl_cons]
    split
    · rename_i ha
      obtain ⟨hm, hle, hat⟩ := ih (t a).priority
      refine ⟨by omega, List.forall_mem_cons.2 ⟨fun _ => hm, hle⟩, .inr ?_⟩
      rcases hat with hat | ⟨p, hp, hr, hp'⟩
      · exact ⟨a, by simp, ha.1, hat.symm⟩
      · exact ⟨p, by simp [hp], hr, hp'⟩
    · rename_i ha
      obtain ⟨hm, hle, hat⟩ := ih m
      refine ⟨hm, List.forall_mem_cons.2 ⟨fun hr => ?_, hle⟩, ?_⟩
      · have : (t a).priority ≤ m := not_lt.1 fun hlt => ha ⟨hr, hlt⟩
        omega
      · rcases hat with hat | ⟨p, hp, hr, hp'⟩
        · exact .inl hat
        · exact .inr ⟨p, by simp [hp], hr, hp'⟩

theorem le_getheight (h : (t p).state = .runnable) : (t p).priority ≤ getheight t :=
  (foldl_height slots 0).2.1 p (List.mem_finRange p) h

theorem getheight_attained :
    getheight t = 0 ∨ ∃ p, (t p).state = .runnable ∧ (t p).priority = getheight t := by
  rcases (foldl_height (t := t) slots 0).2.2 with h | ⟨p, -, h⟩
  · exact .inl h
  · exact .inr ⟨p, h⟩

/-- A RUNNABLE process than which no RUNNABLE process has a higher level. -/
def Top (t : Table) (p : Slot) : Prop :=
  (t p).state = .runnable ∧ ∀ q, (t q).state = .runnable → (t q).priority ≤ (t p).priority

instance (t : Table) (p : Slot) : Decidable (Top t p) := inferInstanceAs (Decidable (_ ∧ _))

/-- Some RUNNABLE process has a level that is not negative. -/
def SomeLevel (t : Table) : Prop := ∃ q, (t q).state = .runnable ∧ 0 ≤ (t q).priority

/-- Where it has, the scan stops at the processes of the highest level. -/
theorem eligible_iff_top (hl : SomeLevel t) : Eligible t p ↔ Top t p := by
  constructor
  · rintro ⟨hr, hp⟩
    exact ⟨hr, fun q hq => hp ▸ le_getheight hq⟩
  · rintro ⟨hr, hmax⟩
    refine ⟨hr, le_antisymm (le_getheight hr) ?_⟩
    rcases getheight_attained (t := t) with h | ⟨q, hq, h⟩
    · obtain ⟨q, hq, h0⟩ := hl
      exact h ▸ h0.trans (hmax q hq)
    · exact h ▸ hmax q hq

/-- The scan stops nowhere else. -/
theorem Eligible.someLevel (h : Eligible t p) : SomeLevel t :=
  ⟨p, h.1, h.2 ▸ (foldl_height slots 0).1⟩

theorem exists_top (h : ∃ p, (t p).state = .runnable) : ∃ p, Top t p := by
  obtain ⟨p, hp, hmax⟩ := Finset.exists_max_image
    (Finset.univ.filter fun p => (t p).state = .runnable) (fun p => (t p).priority)
    (h.imp fun p hp => by simpa using hp)
  exact ⟨p, by simpa using hp, fun q hq => hmax q (by simpa using hq)⟩

/-! ### The cyclic order -/

/-- The slots in cyclic order, the one after `p` first and `p` itself last. -/
def cyclic (p : Slot) : List Slot := slots.drop (p.val + 1) ++ slots.take (p.val + 1)

/-- Round robin among the RUNNABLE processes of the highest level. -/
def roundRobin (t : Table) (p : Slot) : Option Slot := (cyclic p).find? fun q => decide (Top t q)

theorem find_slots_ge (P : Slot → Prop) [DecidablePred P] (i : ℕ) :
    slots.find? (fun p => decide (i ≤ p.val ∧ P p)) =
    (slots.drop i).find? fun p => decide (P p) := by
  have htake : (slots.take i).find? (fun p => decide (i ≤ p.val ∧ P p)) = none := by
    refine List.find?_eq_none.2 fun p hp => ?_
    obtain ⟨j, hj, rfl⟩ := List.mem_take_iff_getElem.1 hp
    have hlt : j < i := by omega
    simp [slots, hlt]
  have hdrop : ∀ p ∈ slots.drop i, i ≤ p.val := by
    intro p hp
    obtain ⟨j, hj, rfl⟩ := List.mem_drop_iff_getElem.1 hp
    simp [slots]
  conv_lhs => rw [← List.take_append_drop i slots]
  rw [List.find?_append, htake, Option.none_or]
  exact List.find?_congr fun p hp => by simp [hdrop p hp]

theorem nextEligible_eq (hl : SomeLevel t) (i : ℕ) :
    nextEligible t i = (slots.drop i).find? fun q => decide (Top t q) := by
  rw [nextEligible, find_slots_ge]
  exact List.find?_congr fun p _ => by simp [eligible_iff_top hl]

/-- A scan that goes on after `p`, with the pass after it, is a round. -/
theorem nextEligible_succ_or (hl : SomeLevel t) (p : Slot) :
    (nextEligible t (p.val + 1)).or (nextEligible t 0) = roundRobin t p := by
  have hall : slots.find? (fun q => decide (Top t q)) =
      ((slots.take (p.val + 1)).find? fun q => decide (Top t q)).or
        ((slots.drop (p.val + 1)).find? fun q => decide (Top t q)) := by
    rw [← List.find?_append, List.take_append_drop]
  rw [nextEligible_eq hl, nextEligible_eq hl, List.drop_zero, hall, roundRobin, cyclic,
    List.find?_append]
  cases (slots.drop (p.val + 1)).find? fun q => decide (Top t q) with
  | some q => rfl
  | none => simp

/-- A scan that stays at `p` takes `p` if it can. -/
theorem nextEligible_self_or (hl : SomeLevel t) (p : Slot) :
    (nextEligible t p.val).or (nextEligible t 0) =
      if Top t p then some p else roundRobin t p := by
  have hdrop : slots.drop p.val = p :: slots.drop (p.val + 1) := by
    have hlt : p.val < slots.length := by simp [slots]
    rw [List.drop_eq_getElem_cons hlt]
    simp [slots]
  rw [← nextEligible_succ_or hl p, nextEligible_eq hl p.val, nextEligible_eq hl (p.val + 1), hdrop,
    List.find?_cons]
  by_cases h : Top t p <;> simp [h]

theorem eligible_of_nextEligible {i : ℕ} (h : nextEligible t i = some p) : Eligible t p := by
  have hp := List.find?_some h
  rw [decide_eq_true_eq] at hp
  exact hp.2

theorem mem_cyclic (p q : Slot) : q ∈ cyclic p := by
  rw [cyclic, List.mem_append, or_comm, ← List.mem_append, List.take_append_drop]
  exact List.mem_finRange q

theorem roundRobin_congr {u : Table} (h : ∀ q, (u q).state = (t q).state ∧
    (u q).priority = (t q).priority) (p : Slot) : roundRobin u p = roundRobin t p :=
  List.find?_congr fun q _ => decide_eq_decide.2 (by simp only [Top, h])

/-! ### The lock -/

/-- The lock is held while a CPU scans, and no two CPUs scan. -/
structure Locked (s : System) : Prop where
  locked : ∀ c i, s.cpu c = .scan i → s.locked = true
  scanner : ∀ c c' i i', s.cpu c = .scan i → s.cpu c' = .scan i' → c = c'

/-- What holds between any two events, whatever the levels: a RUNNING process on each CPU that runs
one, no process on two CPUs, and the lock. -/
structure Lawful (s : System) : Prop extends Locked s where
  running : ∀ c p, s.cpu c = .running p → (s.table p).state = .running
  runner : ∀ c c' p, s.cpu c = .running p → s.cpu c' = .running p → c = c'

/-- The same, with valid levels. -/
structure Consistent (s : System) : Prop extends Lawful s where
  level : ∀ p, 0 ≤ (s.table p).priority ∧ (s.table p).priority ≤ 3

/-- What an event does to the CPUs and the lock. -/
inductive LockChange (s t : System) : Event → Prop
  | same {e : Event} (hd : ∀ c p, e ≠ .dispatch c p) (hc : t.cpu = s.cpu)
      (hl : t.locked = s.locked) : LockChange s t e
  | beginPass (c : ℕ) (h : s.locked = false) (hc : t.cpu = Function.update s.cpu c (.scan 0))
      (hl : t.locked = true) : LockChange s t (.beginPass c)
  | endPass (c : ℕ) (i : ℕ) (h : s.cpu c = .scan i) (hnone : nextEligible s.table i = none)
      (hc : t.cpu = Function.update s.cpu c .idle) (hl : t.locked = false) :
      LockChange s t (.endPass c)
  | dispatch (c : ℕ) (p : Slot) (i : ℕ) (h : s.cpu c = .scan i)
      (hsome : nextEligible s.table i = some p)
      (hc : t.cpu = Function.update s.cpu c (.running p)) (hl : t.locked = false) :
      LockChange s t (.dispatch c p)
  | release {e : Event} (c : ℕ) (p : Slot) (i : ℕ) (he : e.Releases c) (h : s.cpu c = .running p)
      (hfree : s.locked = false) (hc : t.cpu = Function.update s.cpu c (.scan i))
      (hl : t.locked = true) : LockChange s t e

theorem sched_lock {s t : System} {c : ℕ} {p : Slot} {u : Table} (h : s.sched c p u = .ok t) :
    ∃ q stay, settle (u p) = .ok (q, stay) ∧ t.table = Function.update u p q ∧
      t.cpu = Function.update s.cpu c (.scan (if stay then p.val else p.val + 1)) ∧
        t.locked = true := by
  obtain ⟨⟨q, stay⟩, hs, h⟩ := bind_ok.1 h
  obtain rfl := pure_ok.1 h
  exact ⟨q, stay, hs, rfl, rfl, rfl⟩

theorem step_lock {s t : System} {e : Event} (h : step s e = .ok t) : LockChange s t e := by
  cases e with
  | beginPass c =>
    obtain ⟨_, hg, h⟩ := bind_ok.1 h
    obtain rfl := pure_ok.1 h
    exact .beginPass c (guard_ok.1 hg).2 rfl rfl
  | dispatch c p =>
    simp only [step] at h
    split at h
    · obtain ⟨_, hg, h⟩ := bind_ok.1 h
      obtain ⟨t', -, h⟩ := bind_ok.1 h
      obtain rfl := pure_ok.1 h
      exact .dispatch c p _ ‹_› (guard_ok.1 hg) rfl rfl
    · cases h
  | endPass c =>
    simp only [step] at h
    split at h
    · obtain ⟨_, hg, h⟩ := bind_ok.1 h
      obtain rfl := pure_ok.1 h
      exact .endPass c _ ‹_› (guard_ok.1 hg) rfl rfl
    · cases h
  | yield c | sleep c chan =>
    obtain ⟨p, hp, h⟩ := bind_ok.1 h
    obtain ⟨_, hg, h⟩ := bind_ok.1 h
    obtain ⟨q, stay, -, -, hc, hl⟩ := sched_lock h
    exact .release c p _ rfl (current_ok.1 hp) (guard_ok.1 hg) hc hl
  | exit c =>
    obtain ⟨p, hp, h⟩ := bind_ok.1 h
    obtain ⟨_, hg, h⟩ := bind_ok.1 h
    obtain ⟨q, stay, -, -, hc, hl⟩ := sched_lock h
    exact .release c p _ rfl (current_ok.1 hp) (guard_ok.1 hg).1 hc hl
  | wait c child | fork c child | boost c =>
    obtain ⟨p, -, h⟩ := bind_ok.1 h
    obtain ⟨_, -, h⟩ := bind_ok.1 h
    obtain rfl := pure_ok.1 h
    exact .same (by simp) rfl rfl
  | forkDone child | forkFail child | wakeup chan =>
    obtain ⟨_, -, h⟩ := bind_ok.1 h
    obtain rfl := pure_ok.1 h
    exact .same (by simp) rfl rfl
  | kill pid =>
    simp only [step] at h
    split at h
    · obtain ⟨_, -, h⟩ := bind_ok.1 h
      obtain rfl := pure_ok.1 h
      exact .same (by simp) rfl rfl
    · cases h

/-- Every event keeps the lock. -/
theorem Locked.step {s t : System} {e : Event} (hs : Locked s) (h : step s e = .ok t) :
    Locked t := by
  have hl := step_lock h
  generalize e = e' at hl
  cases hl with
  | same hd hc hl => exact ⟨by rw [hc, hl]; exact hs.locked, by rw [hc]; exact hs.scanner⟩
  | beginPass c hfree hc hl | release c p i he hp hfree hc hl =>
    have hnone : ∀ c' i, s.cpu c' ≠ .scan i := fun c' i h' => by
      simp [hs.locked c' i h'] at hfree
    have honly : ∀ c' i, t.cpu c' = .scan i → c' = c := fun c' i h' => by
      by_contra hne
      rw [hc, Function.update_of_ne hne] at h'
      exact hnone c' i h'
    exact ⟨fun _ _ _ => hl, fun c₁ c₂ i₁ i₂ h₁ h₂ => (honly c₁ i₁ h₁).trans (honly c₂ i₂ h₂).symm⟩
  | endPass c i h' hn hc hl | dispatch c p i h' hn hc hl =>
    have hnone : ∀ c' j, t.cpu c' ≠ .scan j := fun c' j h'' => by
      rcases eq_or_ne c' c with rfl | hne
      · simp [hc] at h''
      · rw [hc, Function.update_of_ne hne] at h''
        exact hne (hs.scanner c' c j i h'' h')
    exact ⟨fun c' j h'' => absurd h'' (hnone c' j), fun c' _ j _ h'' => absurd h'' (hnone c' j)⟩

theorem locked_reached {s : System} (h : Reached s) : Locked s :=
  h.invariant (by rintro s rfl; exact ⟨by simp [booted], by simp [booted]⟩)
    fun _ _ _ hI he => hI.step he

/-- Every reachable state is consistent. -/
theorem consistent_reached {s : System} (h : Reached s) : Consistent s :=
  { locked_reached h with
    level := fun p => ((reached_inv h).fair p).level
    running := fun c p hp => ((reached_inv h).running c p hp).1
    runner := (reached_inv h).unique }

/-! ### Coming back to the scheduler -/

/-- Neither the time slice nor the allotment is used up. -/
def Keeps (p : Proc) : Prop := p.tickRemain ≠ 0 ∧ p.sliceRemain ≠ 0

instance (p : Proc) : Decidable (Keeps p) := inferInstanceAs (Decidable (_ ∧ _))

theorem settle_stay {p p' : Proc} {stay : Bool} (h : settle p = .ok (p', stay)) :
    stay = decide (Keeps p) := by
  unfold settle at h
  split at h
  · rename_i hs
    obtain ⟨_, -, h⟩ := bind_ok.1 h
    obtain ⟨_, -, h⟩ := bind_ok.1 h
    obtain ⟨-, rfl⟩ := Prod.mk.inj (pure_ok.1 h)
    simp [Keeps, hs]
  · rename_i hs
    split at h
    · rename_i ht
      obtain ⟨-, rfl⟩ := Prod.mk.inj (Except.ok.inj h)
      simp [Keeps, hs, ht]
    · rename_i ht
      obtain ⟨_, -, h⟩ := bind_ok.1 h
      obtain ⟨-, rfl⟩ := Prod.mk.inj (pure_ok.1 h)
      simp only [Keeps, ht, false_and, decide_false]

/-- Process `p` comes back on CPU `c`: its budgets are settled, the others are at most nudged, and
the scan goes on at its slot or after it. -/
structure Returned (s t : System) (c : ℕ) (p : Slot) : Prop where
  free : s.locked = false
  held : t.locked = true
  cpu : t.cpu =
    Function.update s.cpu c (.scan (if Keeps (s.table p) then p.val else p.val + 1))
  others : ∀ q, q ≠ p → Nudged (s.table q) (t.table q)
  state : (t.table p).state ≠ .running
  priority : (t.table p).priority = (s.table p).priority ∨
    (t.table p).priority = (s.table p).priority - 1 ∧ 0 ≤ (t.table p).priority

theorem sched_returned {s t : System} {c : ℕ} {p : Slot} {u : Table} {st : ProcState} {ch : Chan}
    (hfree : s.locked = false) (hu : ∀ q, Nudged (s.table q) (u q)) (hst : st ≠ .running)
    (h : s.sched c p (Function.update u p { u p with state := st, chan := ch }) = .ok t) :
    Returned s t c p := by
  obtain ⟨q', stay, hs, ht, hc, hl⟩ := sched_lock h
  rw [Function.update_self] at hs
  obtain ⟨par, k, st', hup, -⟩ := hu p
  have hkeep : stay = decide (Keeps (s.table p)) := by
    rw [settle_stay hs, hup]
    rfl
  obtain ⟨hst', -, hprio⟩ := settle_ok hs
  have htp : t.table p = q' := by rw [ht, Function.update_self]
  refine ⟨hfree, hl, ?_, fun q hq => ?_, ?_, ?_⟩
  · rw [hc, hkeep]
    simp
  · have : t.table q = u q := by simp [ht, hq]
    exact this ▸ hu q
  · rw [htp, hst']
    exact hst
  · rw [htp]
    rw [hup] at hprio
    exact hprio

theorem release_returned {s t : System} {e : Event} {c : ℕ} {p : Slot} (hp : s.cpu c = .running p)
    (he : e.Releases c) (h : step s e = .ok t) : Returned s t c p := by
  cases e with
  | yield c' | sleep c' chan =>
    obtain rfl : c' = c := he
    obtain ⟨p', hp', h⟩ := bind_ok.1 h
    obtain ⟨_, hg, h⟩ := bind_ok.1 h
    obtain rfl := Cpu.running.inj (hp.symm.trans (current_ok.1 hp'))
    exact sched_returned (guard_ok.1 hg) (fun q => .refl _) (by simp) h
  | exit c' =>
    obtain rfl : c' = c := he
    obtain ⟨p', hp', h⟩ := bind_ok.1 h
    obtain ⟨_, hg, h⟩ := bind_ok.1 h
    obtain rfl := Cpu.running.inj (hp.symm.trans (current_ok.1 hp'))
    obtain ⟨u, hu, hx⟩ := exitProc_nudged p s.table
    rw [hx] at h
    exact sched_returned (guard_ok.1 hg).1 hu (by simp) h
  | _ => exact he.elim

/-! ### Until the next dispatch -/

/-- An event other than a dispatch that changes no state and no priority. -/
def QuietStep (s : System) (e : Event) (t : System) : Prop :=
  Step s e t ∧ (∀ c p, e ≠ .dispatch c p) ∧
    ∀ q, (t.table q).state = (s.table q).state ∧ (t.table q).priority = (s.table q).priority

/-- The choice looks at states and levels only. -/
theorem nextEligible_congr {t u : Table} (h : ∀ q, (u q).state = (t q).state ∧
    (u q).priority = (t q).priority) (i : ℕ) : nextEligible u i = nextEligible t i := by
  have hheight : getheight u = getheight t := by
    unfold getheight
    congr 1
    funext m p
    rw [(h p).1, (h p).2]
  refine List.find?_congr fun p _ => decide_eq_decide.2 ?_
  rw [Eligible, Eligible, (h p).1, (h p).2, hheight]

theorem Lawful.quiet {s t : System} {e : Event} (hs : Lawful s) (h : QuietStep s e t) :
    Lawful t ∧ ∀ c, ¬e.Releases c := by
  obtain ⟨h, hd, hsame⟩ := h
  have hrel : ∀ c, ¬e.Releases c := by
    intro c he
    obtain ⟨p, hp⟩ : ∃ p, s.cpu c = .running p := by
      cases e with
      | yield c' | sleep c' chan | exit c' =>
        obtain rfl : c' = c := he
        obtain ⟨p, hp, -⟩ := bind_ok.1 h
        exact ⟨p, current_ok.1 hp⟩
      | _ => exact he.elim
    have := (release_returned hp he h).state
    rw [(hsame p).1, hs.running c p hp] at this
    exact this rfl
  have hcpu : ∀ c p, t.cpu c = .running p → s.cpu c = .running p := by
    intro c p hp
    rcases step_cpu h hp with ⟨hp, -⟩ | rfl
    · exact hp
    · exact absurd rfl (hd c p)
  refine ⟨{ hs.toLocked.step h with running := fun c p hp => ?_, runner := ?_ }, hrel⟩
  · rw [(hsame p).1]
    exact hs.running c p (hcpu c p hp)
  · exact fun c₁ c₂ q h₁ h₂ => hs.runner c₁ c₂ q (hcpu c₁ q h₁) (hcpu c₂ q h₂)

theorem quiet_table {s u : System} {es : List Event} (h : Run QuietStep s es u) (r : Slot) :
    (u.table r).state = (s.table r).state ∧ (u.table r).priority = (s.table r).priority :=
  h.invariant (I := fun u => ∀ r, (u.table r).state = (s.table r).state ∧
    (u.table r).priority = (s.table r).priority) (fun _ => ⟨rfl, rfl⟩)
    (fun _ _ _ hI he r => ⟨(he.2.2 r).1.trans (hI r).1, (he.2.2 r).2.trans (hI r).2⟩) r

/-- How far the choice is from the position `k` at which CPU `c` scans: the scan is there; or it has
found no one, and the next pass has not begun; or it has. -/
inductive Searching (t : Table) (c k : ℕ) (u : System) : Prop
  | first (h : u.cpu c = .scan k)
  | between (hnone : nextEligible t k = none) (h : u.locked = false)
  | second (c' : ℕ) (hnone : nextEligible t k = none) (h : u.cpu c' = .scan 0)

theorem Searching.step {t : Table} {c k : ℕ} {s u : System} {e : Event} (h : Searching t c k s)
    (hs : Lawful s) (ht : ∀ i, nextEligible s.table i = nextEligible t i)
    (he : QuietStep s e u) : Searching t c k u := by
  have hrel := (hs.quiet he).2
  have hl := step_lock he.1
  have hd := he.2.1
  generalize e = e' at hl hrel hd
  cases hl with
  | same hd hc hl =>
    cases h with
    | first h => exact .first (by rw [hc]; exact h)
    | between hnone h => exact .between hnone (hl.trans h)
    | second c' hnone h => exact .second c' hnone (by rw [hc]; exact h)
  | beginPass c' hfree hc hl =>
    cases h with
    | first h => simp [hs.locked c k h] at hfree
    | between hnone h => exact .second c' hnone (by rw [hc, Function.update_self])
    | second c'' hnone h => simp [hs.locked c'' 0 h] at hfree
  | endPass c' i h' hn hc hl =>
    rw [ht] at hn
    cases h with
    | first h =>
      obtain rfl := hs.scanner c c' k i h h'
      obtain rfl : k = i := by simpa using h.symm.trans h'
      exact .between hn hl
    | between hnone h => simp [hs.locked c' i h'] at h
    | second c'' hnone h => exact .between hnone hl
  | dispatch c' p => exact absurd rfl (hd c' p)
  | release c' p i he' => exact absurd he' (hrel c')

/-- Where the scan stops next, after any quiet events, is the first choice of the search. -/
theorem quiet_run {c k : ℕ} {s u : System} {es : List Event} (hs : Lawful s)
    (hk : s.cpu c = .scan k) (h : Run QuietStep s es u) {c' i : ℕ} {q : Slot}
    (hc' : u.cpu c' = .scan i) (hq : nextEligible u.table i = some q) :
    (nextEligible s.table k).or (nextEligible s.table 0) = some q := by
  have hinv : Searching s.table c k u ∧ Lawful u ∧
      ∀ r, (u.table r).state = (s.table r).state ∧ (u.table r).priority = (s.table r).priority := by
    refine h.invariant (I := fun u => Searching s.table c k u ∧ Lawful u ∧
      ∀ r, (u.table r).state = (s.table r).state ∧ (u.table r).priority = (s.table r).priority)
      ⟨.first hk, hs, fun _ => ⟨rfl, rfl⟩⟩ ?_
    rintro u₁ e u₂ ⟨hsearch, hu, ht⟩ he
    exact ⟨hsearch.step hu (nextEligible_congr ht) he, (hu.quiet he).1,
      fun r => ⟨(he.2.2 r).1.trans (ht r).1, (he.2.2 r).2.trans (ht r).2⟩⟩
  obtain ⟨hsearch, hu, ht⟩ := hinv
  rw [nextEligible_congr ht] at hq
  cases hsearch with
  | first h =>
    obtain rfl := hu.scanner c c' k i h hc'
    obtain rfl : k = i := by simpa using h.symm.trans hc'
    rw [hq, Option.some_or]
  | between hnone h => simp [hu.locked c' i hc'] at h
  | second c'' hnone h =>
    obtain rfl := hu.scanner c'' c' 0 i h hc'
    obtain rfl : 0 = i := by simpa using h.symm.trans hc'
    rw [hnone, Option.none_or, hq]

/-! ### A dispatch is possible -/

theorem index_isSome {a : List ℤ} {i : ℤ} (h : 0 ≤ i ∧ i < a.length) : ∃ x, index a i = .ok x :=
  ⟨_, index_ok.2 ⟨h, rfl⟩⟩

/-- The level of a process is an index of the tables. -/
def LevelFits (p : Proc) : Prop := 0 ≤ p.priority ∧ p.priority ≤ 3

instance (p : Proc) : Decidable (LevelFits p) := inferInstanceAs (Decidable (_ ∧ _))

theorem age_total {p pp : Proc} (hp : LevelFits p) (hpp : pp.state = .runnable → LevelFits pp) :
    ∃ pp', age p pp = .ok pp' := by
  have hbound : ∀ {x : ℤ}, 0 ≤ x ∧ x ≤ 3 → 0 ≤ x ∧ x < (4 : ℕ) := fun h => by omega
  obtain ⟨slice, hslice⟩ := index_isSome (a := slices) (hbound hp)
  obtain ⟨tick, htick⟩ := index_isSome (a := timeSlice) (hbound hp)
  unfold age
  split
  · exact ⟨_, rfl⟩
  · rename_i hst
    obtain ⟨ts, hts⟩ := index_isSome (a := timeSlice) (hbound (hpp (not_not.1 hst)))
    dsimp only
    rw [hts, ok_bind]
    split
    · rw [hslice, ok_bind, htick, ok_bind]
      exact ⟨_, rfl⟩
    · exact ⟨_, rfl⟩

/-- A dispatch goes through if the levels of the process and of the RUNNABLE processes in front of
it are indices. -/
theorem dispatch_isOk_iff : (∃ t', dispatch p t = .ok t') ↔
    LevelFits (t p) ∧ ∀ r < p, (t r).state = .runnable → LevelFits (t r) := by
  constructor
  · rintro ⟨t', ht'⟩
    obtain ⟨p₁, hp₁, -, hrest⟩ := dispatch_ok ht'
    refine ⟨(charge_ok hp₁).2.2, fun r hr hst => ?_⟩
    have hage := hrest r hr.ne
    rw [if_pos hr] at hage
    obtain ⟨h0, h3, -⟩ := (age_ok hage).2.2 hst
    exact ⟨h0, h3⟩
  · rintro ⟨hp, hrest⟩
    obtain ⟨p₁, hp₁⟩ : ∃ p₁, charge (t p) = .ok p₁ := ⟨_, if_pos ⟨hp.1, by have := hp.2; omega⟩⟩
    have hself : LevelFits p₁ := by rwa [LevelFits, (charge_ok hp₁).1]
    -- a prefix of the loop leaves the processes behind it alone
    obtain ⟨u, hu, -⟩ : ∃ u, escalate p (Function.update t p p₁) = .ok u ∧ _ := by
      refine foldlM_total (I := fun pre (u : Table) => ∀ r ∉ pre, u r = Function.update t p p₁ r)
        (fun _ _ => rfl) ?_
      intro pre q u hpre hu
      have hmem : ∀ r ∈ pre ++ [q], r < p := fun r hr => mem_takeWhile_slots.1 (hpre.subset hr)
      have hlt : q < p := hmem q (by simp)
      have hq : q ∉ pre := fun hmem => by
        have hnd : (pre ++ [q]).Nodup := hpre.sublist.nodup (nodup_takeWhile_slots p)
        exact (List.nodup_append'.1 hnd).2.2 hmem (by simp)
      have hup : u p = p₁ := by
        rw [hu p fun h => (hmem p (List.mem_append_left _ h)).false, Function.update_self]
      have huq : u q = t q := by rw [hu q hq, Function.update_of_ne hlt.ne]
      obtain ⟨q', hq'⟩ := @age_total (u p) (u q) (hup ▸ hself) (huq ▸ hrest q hlt)
      refine ⟨Function.update u q q', by rw [hq']; rfl, fun r hr => ?_⟩
      rw [List.mem_append, not_or, List.mem_singleton] at hr
      rw [Function.update_of_ne hr.2, hu r hr.1]
    refine ⟨Function.update u p { u p with state := .running }, ?_⟩
    rw [dispatch, hp₁, ok_bind]
    dsimp only
    rw [hu]
    rfl

/-- With valid levels a dispatch goes through. -/
theorem dispatch_total {t : Table} (hl : ∀ q, LevelFits (t q)) (p : Slot) :
    ∃ t', dispatch p t = .ok t' := dispatch_isOk_iff.2 ⟨hl p, fun r _ _ => hl r⟩

theorem step_dispatch_iff {s : System} {c i : ℕ} {q : Slot} (hc : s.cpu c = .scan i)
    (hq : nextEligible s.table i = some q) :
    (∃ t, Step s (.dispatch c q) t) ↔ ∃ t', dispatch q s.table = .ok t' := by
  have hg : guard (nextEligible s.table i = some q) = .ok () := guard_ok.2 hq
  simp only [Step, step, hc, hg, ok_bind]
  constructor
  · rintro ⟨t, h⟩
    obtain ⟨t', ht', -⟩ := bind_ok.1 h
    exact ⟨t', ht'⟩
  · rintro ⟨t', ht'⟩
    rw [ht']
    exact ⟨_, rfl⟩

/-- The rest of the pass and one whole pass come to the first choice of the search. -/
theorem dispatch_within {s : System} {c k : ℕ} {q : Slot} (hk : s.cpu c = .scan k)
    (hq : (nextEligible s.table k).or (nextEligible s.table 0) = some q)
    (hd : ∃ t', dispatch q s.table = .ok t') :
    ∃ es u v, (es = [] ∨ es = [.endPass c, .beginPass c]) ∧ Run QuietStep s es u ∧
      u.table = s.table ∧ Step u (.dispatch c q) v := by
  cases hn : nextEligible s.table k with
  | some q' =>
    rw [hn, Option.some_or] at hq
    obtain rfl := Option.some.inj hq
    obtain ⟨v, hv⟩ := (step_dispatch_iff hk hn).2 hd
    exact ⟨[], s, v, .inl rfl, .nil s, rfl, hv⟩
  | none =>
    rw [hn, Option.none_or] at hq
    have hend :
        Step s (.endPass c) { s with cpu := Function.update s.cpu c .idle, locked := false } := by
      have hg : guard (nextEligible s.table k = none) = .ok () := guard_ok.2 hn
      simp only [Step, step, hk]
      rw [hg]
      rfl
    have hbegin : Step { s with cpu := Function.update s.cpu c .idle, locked := false }
        (.beginPass c) { s with cpu := Function.update s.cpu c (.scan 0), locked := true } := by
      simp [Step, step, guard, pure, Except.pure]
    have hrun : Run QuietStep s [.endPass c, .beginPass c]
        { s with cpu := Function.update s.cpu c (.scan 0), locked := true } :=
      .cons ⟨hend, by simp, fun _ => ⟨rfl, rfl⟩⟩
        (.cons ⟨hbegin, by simp, fun _ => ⟨rfl, rfl⟩⟩ (.nil _))
    have hscan : Function.update s.cpu c (.scan 0) c = .scan 0 := Function.update_self _ _ _
    obtain ⟨v, hv⟩ := (step_dispatch_iff (s := { s with
      cpu := Function.update s.cpu c (.scan 0), locked := true }) hscan hq).2 hd
    exact ⟨_, _, v, .inr rfl, hrun, rfl, hv⟩

/-- With valid levels the search finds a process that can run. -/
theorem dispatch_within_two_passes {s : System} (hs : Consistent s) {c k : ℕ}
    (hk : s.cpu c = .scan k) (h : ∃ p, (s.table p).state = .runnable) :
    ∃ es u q v, (es = [] ∨ es = [.endPass c, .beginPass c]) ∧ Run QuietStep s es u ∧
      u.table = s.table ∧ Step u (.dispatch c q) v := by
  obtain ⟨p, hp⟩ := exists_top h
  have hl : SomeLevel s.table := ⟨p, hp.1, (hs.level p).1⟩
  have hsome : (nextEligible s.table 0).isSome = true := by
    rw [nextEligible_eq hl, List.drop_zero, List.find?_isSome]
    exact ⟨p, List.mem_finRange p, by simpa using hp⟩
  obtain ⟨q, hq⟩ : ∃ q, (nextEligible s.table k).or (nextEligible s.table 0) = some q := by
    rw [← Option.isSome_iff_exists, Option.isSome_or, hsome, Bool.or_true]
  obtain ⟨es, u, v, hes, hrun, htable, hd⟩ := dispatch_within hk hq (dispatch_total hs.level q)
  exact ⟨es, u, q, v, hes, hrun, htable, hd⟩

/-! ### The next process -/

/-- Process `p` has just come back to `scheduler()` on CPU `c`: it has changed its state, its CPU
has the lock, and the other CPUs run other processes or none. -/
structure Back (s : System) (c : ℕ) (p : Slot) : Prop where
  cpu : s.cpu c = .running p
  state : (s.table p).state ≠ .running
  noScan : ∀ c' i, s.cpu c' ≠ .scan i
  running : ∀ c' q, c' ≠ c → s.cpu c' = .running q → q ≠ p ∧ (s.table q).state = .running
  runner : ∀ c₁ c₂ q, c₁ ≠ c → c₂ ≠ c → s.cpu c₁ = .running q → s.cpu c₂ = .running q → c₁ = c₂

/-- The process that is to run next, `t` being the table at the return of `p` and `u` the one after
its budgets are settled. -/
def chosen (t u : Table) (p : Slot) : Option Slot :=
  if Keeps (t p) ∧ Top u p then some p else roundRobin u p

/-- **Cyclic round robin** after the return of `p`: the budgets can be settled, any scan stops next
at the process that is to run, and if a process is RUNNABLE one is dispatched within two passes. -/
def RoundRobin (s : System) (c : ℕ) (p : Slot) : Prop :=
  ∃ s', s.sched c p s.table = .ok s' ∧
    (∀ es u c' i q, Run QuietStep s' es u → u.cpu c' = .scan i → nextEligible u.table i = some q →
      chosen s.table s'.table p = some q) ∧
    ((∃ q, (s'.table q).state = .runnable) → ∃ es u q v,
      (es = [] ∨ es = [.endPass c, .beginPass c]) ∧ Run QuietStep s' es u ∧
        Step u (.dispatch c q) v)

/-- The indices with which the budgets are settled are those of the tables. -/
def SettleFits (p : Proc) : Prop :=
  if p.sliceRemain = 0 then 1 ≤ p.priority ∧ p.priority ≤ 4 else p.tickRemain = 0 → LevelFits p

/-- The table with the level of `p` after the settling. -/
def relegated (t : Table) (p : Slot) : Table :=
  Function.update t p { t p with
    priority := if (t p).sliceRemain = 0 then (t p).priority - 1 else (t p).priority }

/-- The levels that the scheduler meets: those of the settling, and those of the process that is to
run and of the RUNNABLE processes in front of it. -/
def LevelsFit (t : Table) (p : Slot) : Prop :=
  SettleFits (t p) ∧ ∀ q, chosen t (relegated t p) p = some q → ∀ r ≤ q,
    (relegated t p r).state = .runnable → LevelFits (relegated t p r)

theorem settle_isOk_iff {p : Proc} : (∃ r, settle p = .ok r) ↔ SettleFits p := by
  unfold settle SettleFits
  have hbound : ∀ {x : ℤ}, 0 ≤ x ∧ x ≤ 3 ↔ 0 ≤ x ∧ x < (4 : ℕ) := fun {x} => by omega
  split
  · constructor
    · rintro ⟨r, hr⟩
      obtain ⟨tick, htick, -⟩ := bind_ok.1 hr
      have hin := (index_ok.1 htick).1
      simp only [timeSlice, List.length_cons, List.length_nil] at hin
      omega
    · intro h
      have hin : 0 ≤ p.priority - 1 ∧ p.priority - 1 < (4 : ℕ) := by omega
      obtain ⟨tick, htick⟩ := index_isSome (a := timeSlice) hin
      obtain ⟨slice, hslice⟩ := index_isSome (a := slices) hin
      dsimp only
      rw [htick, ok_bind, hslice, ok_bind]
      exact ⟨_, rfl⟩
  split
  · rename_i ht
    exact ⟨fun _ h => absurd h ht, fun _ => ⟨_, rfl⟩⟩
  · rename_i ht
    constructor
    · rintro ⟨r, hr⟩ -
      obtain ⟨tick, htick, -⟩ := bind_ok.1 hr
      exact hbound.2 (index_ok.1 htick).1
    · intro h
      obtain ⟨tick, htick⟩ := index_isSome (a := timeSlice) (hbound.1 (h (not_not.1 ht)))
      rw [htick, ok_bind]
      exact ⟨_, rfl⟩

theorem settle_level {p p' : Proc} {stay : Bool} (h : settle p = .ok (p', stay)) :
    p'.state = p.state ∧
      p'.priority = if p.sliceRemain = 0 then p.priority - 1 else p.priority := by
  unfold settle at h
  split at h
  · rename_i hs
    obtain ⟨_, -, h⟩ := bind_ok.1 h
    obtain ⟨_, -, h⟩ := bind_ok.1 h
    obtain ⟨rfl, -⟩ := Prod.mk.inj (pure_ok.1 h)
    exact ⟨rfl, (if_pos hs).symm⟩
  · rename_i hs
    rw [if_neg hs]
    split at h
    · obtain ⟨rfl, -⟩ := Prod.mk.inj (Except.ok.inj h)
      exact ⟨rfl, rfl⟩
    · obtain ⟨_, -, h⟩ := bind_ok.1 h
      obtain ⟨rfl, -⟩ := Prod.mk.inj (pure_ok.1 h)
      exact ⟨rfl, rfl⟩

theorem chosen_congr {t u v : Table} (h : ∀ q, (u q).state = (v q).state ∧
    (u q).priority = (v q).priority) (p : Slot) : chosen t u p = chosen t v p := by
  have htop : Top u p ↔ Top v p := by simp only [Top, h]
  rw [chosen, chosen, roundRobin_congr h]
  exact if_congr (and_congr_right fun _ => htop) rfl rfl

/-- There is a process to run if one is RUNNABLE, and it is one of the highest level. -/
theorem chosen_spec (t u : Table) (p : Slot) : (∀ q, chosen t u p = some q → Top u q) ∧
    ((∃ q, (u q).state = .runnable) → ∃ q, chosen t u p = some q) := by
  unfold chosen
  constructor
  · intro q hq
    split at hq
    · rename_i h
      obtain rfl := Option.some.inj hq
      exact h.2
    · have htop := List.find?_some hq
      rwa [decide_eq_true_eq] at htop
  · intro h
    split
    · exact ⟨p, rfl⟩
    · obtain ⟨q, hq⟩ := exists_top h
      rw [← Option.isSome_iff_exists, roundRobin, List.find?_isSome]
      exact ⟨q, mem_cyclic p q, decide_eq_true hq⟩

/-- The search from where the scan goes on. -/
theorem search_eq {t u : Table} (hl : SomeLevel u) (p : Slot) :
    (nextEligible u (if Keeps (t p) then p.val else p.val + 1)).or (nextEligible u 0) =
      chosen t u p := by
  rw [chosen]
  by_cases hkeep : Keeps (t p)
  · rw [if_pos hkeep, nextEligible_self_or hl]
    exact if_congr (and_iff_right hkeep).symm rfl rfl
  · rw [if_neg hkeep, nextEligible_succ_or hl, if_neg fun h => hkeep h.1]

/-- What the return does, if the budgets can be settled. -/
theorem Back.sched {s s' : System} {c : ℕ} {p : Slot} (h : Back s c p)
    (hs : s.sched c p s.table = .ok s') : Lawful s' ∧
      s'.cpu c = .scan (if Keeps (s.table p) then p.val else p.val + 1) ∧
      ∀ q, (s'.table q).state = (relegated s.table p q).state ∧
        (s'.table q).priority = (relegated s.table p q).priority := by
  obtain ⟨q, stay, hsettle, htable, hcpu, hlock⟩ := sched_lock hs
  have hself : s'.cpu c = .scan (if stay then p.val else p.val + 1) := by
    rw [hcpu, Function.update_self]
  have hother : ∀ c', c' ≠ c → s'.cpu c' = s.cpu c' := fun c' hne => by
    rw [hcpu, Function.update_of_ne hne]
  have hscan : ∀ c' i, s'.cpu c' = .scan i → c' = c := fun c' i h' => by
    by_contra hne
    rw [hother c' hne] at h'
    exact h.noScan c' i h'
  have hrun : ∀ c' q, s'.cpu c' = .running q → c' ≠ c ∧ s.cpu c' = .running q := by
    intro c' q h'
    have hne : c' ≠ c := by
      rintro rfl
      rw [hself] at h'
      cases h'
    exact ⟨hne, hother c' hne ▸ h'⟩
  refine ⟨⟨⟨fun _ _ _ => hlock, fun c₁ c₂ i₁ i₂ h₁ h₂ =>
    (hscan c₁ i₁ h₁).trans (hscan c₂ i₂ h₂).symm⟩,
    fun c' r h' => ?_, fun c₁ c₂ r h₁ h₂ => ?_⟩, ?_, fun r => ?_⟩
  · obtain ⟨hne, h'⟩ := hrun c' r h'
    obtain ⟨hrp, hst⟩ := h.running c' r hne h'
    rwa [htable, Function.update_of_ne hrp]
  · obtain ⟨hne₁, h₁⟩ := hrun c₁ r h₁
    obtain ⟨hne₂, h₂⟩ := hrun c₂ r h₂
    exact h.runner c₁ c₂ r hne₁ hne₂ h₁ h₂
  · rw [hself, settle_stay hsettle]
    simp
  · rw [htable, relegated]
    rcases eq_or_ne r p with rfl | hne
    · rw [Function.update_self, Function.update_self]
      exact settle_level hsettle
    · rw [Function.update_of_ne hne, Function.update_of_ne hne]
      exact ⟨rfl, rfl⟩

/-- **The next process.**  A process comes back to the scheduler, with any table.  The scheduler
goes on as a cyclic round robin if and only if the levels that it meets are indices of its
tables. -/
theorem next_dispatch_iff {s : System} {c : ℕ} {p : Slot} (h : Back s c p) :
    RoundRobin s c p ↔ LevelsFit s.table p := by
  constructor
  · rintro ⟨s', hs, hfirst, hwithin⟩
    obtain ⟨-, -, hsame⟩ := h.sched hs
    refine ⟨settle_isOk_iff.1 ?_, fun q hq r hr hst => ?_⟩
    · obtain ⟨q, stay, hsettle, -⟩ := sched_lock hs
      exact ⟨_, hsettle⟩
    rw [← chosen_congr hsame] at hq
    have htop := (chosen_spec s.table s'.table p).1 q hq
    obtain ⟨es, u, q', v, hes, hrun, hd⟩ := hwithin ⟨q, htop.1⟩
    obtain ⟨i, hc, hq'⟩ : ∃ i, u.cpu c = .scan i ∧ nextEligible u.table i = some q' := by
      have hl := step_lock hd
      cases hl with
      | same hne => exact absurd rfl (hne c q')
      | dispatch _ _ i hc hq' => exact ⟨i, hc, hq'⟩
      | release _ _ _ he => exact he.elim
    obtain rfl : q = q' := by
      have heq := hfirst es u c i q' hrun hc hq'
      rw [hq] at heq
      exact Option.some.inj heq
    obtain ⟨hq, hbefore⟩ := dispatch_isOk_iff.1 ((step_dispatch_iff hc hq').1 ⟨v, hd⟩)
    have hu : ∀ r, (u.table r).state = (relegated s.table p r).state ∧
        (u.table r).priority = (relegated s.table p r).priority := by
      exact fun r =>
        ⟨(quiet_table hrun r).1.trans (hsame r).1, (quiet_table hrun r).2.trans (hsame r).2⟩
    have hfits : LevelFits (u.table r) := by
      rcases hr.lt_or_eq with hlt | rfl
      · exact hbefore r hlt ((hu r).1.trans hst)
      · exact hq
    rwa [LevelFits, (hu r).2] at hfits
  · rintro ⟨hsettle, hfits⟩
    obtain ⟨⟨q, stay⟩, hq⟩ := settle_isOk_iff.2 hsettle
    obtain ⟨s', hs⟩ : ∃ s', s.sched c p s.table = .ok s' := by
      rw [System.sched, hq]
      exact ⟨_, rfl⟩
    obtain ⟨hlawful, hk, hsame⟩ := h.sched hs
    refine ⟨s', hs, fun es u c' i q hrun hc' hq => ?_, fun hrunnable => ?_⟩
    · have hsearch := quiet_run hlawful hk hrun hc' hq
      have hl : SomeLevel s'.table := by
        obtain ⟨r, hr, h0⟩ := (eligible_of_nextEligible hq).someLevel
        exact ⟨r, (quiet_table hrun r).1 ▸ hr, (quiet_table hrun r).2 ▸ h0⟩
      rwa [search_eq hl] at hsearch
    · obtain ⟨q, hq⟩ := (chosen_spec s.table s'.table p).2 hrunnable
      have htop := (chosen_spec s.table s'.table p).1 q hq
      have hlevel : ∀ r ≤ q, (s'.table r).state = .runnable → LevelFits (s'.table r) := by
        intro r hr hst
        rw [LevelFits, (hsame r).2]
        exact hfits q (chosen_congr hsame p ▸ hq) r hr ((hsame r).1 ▸ hst)
      have hl : SomeLevel s'.table := ⟨q, htop.1, (hlevel q le_rfl htop.1).1⟩
      rw [← search_eq hl] at hq
      obtain ⟨es, u, v, hes, hrun, -, hd⟩ := dispatch_within hk hq
        (dispatch_isOk_iff.2 ⟨hlevel q le_rfl htop.1, fun r hr => hlevel r hr.le⟩)
      exact ⟨es, u, q, v, hes, hrun, hd⟩

/-- With valid levels only the last tick of level 0 is an obstacle. -/
theorem levelsFit_iff {t : Table} (hl : ∀ q, LevelFits (t q)) (p : Slot) :
    LevelsFit t p ↔ ((t p).sliceRemain = 0 → (t p).priority ≠ 0) := by
  have hp := hl p
  unfold LevelFits at hp
  constructor
  · rintro ⟨hsettle, -⟩ hs h0
    rw [SettleFits, if_pos hs] at hsettle
    omega
  · intro h
    refine ⟨?_, fun q _ r _ _ => ?_⟩
    · unfold SettleFits
      split
      · rename_i hs
        have := h hs
        omega
      · exact fun _ => hp
    · rw [relegated]
      rcases eq_or_ne r p with rfl | hne
      · rw [Function.update_self]
        show 0 ≤ (if (t r).sliceRemain = 0 then (t r).priority - 1 else (t r).priority) ∧
          (if (t r).sliceRemain = 0 then (t r).priority - 1 else (t r).priority) ≤ 3
        split
        · rename_i hs
          have := h hs
          omega
        · exact hp
      · rw [Function.update_of_ne hne]
        exact hl r

/-! ### The calls that come back -/

theorem Lawful.back_update {s : System} (hs : Lawful s) {c : ℕ} {p : Slot}
    (hp : s.cpu c = .running p)
    (hfree : s.locked = false) {u : Table} (hu : ∀ q, Nudged (s.table q) (u q)) {st : ProcState}
    {ch : Chan} (hst : st ≠ .running) :
    Back { s with table := Function.update u p { u p with state := st, chan := ch } } c p := by
  refine ⟨hp, ?_, fun c' i h => ?_, fun c' q hne h => ?_, fun c₁ c₂ q _ _ => hs.runner c₁ c₂ q⟩
  · show (Function.update u p { u p with state := st, chan := ch } p).state ≠ .running
    rwa [Function.update_self]
  · have := hs.locked c' i h
    rw [hfree] at this
    cases this
  · have hqp : q ≠ p := fun heq => hne (hs.runner c' c p (heq ▸ h) hp)
    refine ⟨hqp, ?_⟩
    show (Function.update u p { u p with state := st, chan := ch } q).state = .running
    rw [Function.update_of_ne hqp]
    obtain ⟨par, k, st', hq, hst'⟩ := hu q
    have hrun := hs.running c' q h
    rw [hq]
    rcases hst' with rfl | ⟨hsl, -⟩
    · exact hrun
    · rw [hrun] at hsl
      cases hsl

/-- A process that yields, sleeps or exits comes back to the scheduler. -/
theorem Lawful.back {s : System} (hs : Lawful s) {e : Event} {c : ℕ} {p : Slot}
    (hp : s.cpu c = .running p) (he : e.Releases c) (h : step s e ≠ .error .disabled) :
    ∃ u, Back { s with table := u } c p ∧
      step s e = ({ s with table := u } : System).sched c p u := by
  have hcurrent : s.current c = .ok p := current_ok.2 hp
  have hguard : ∀ {b : Prop} [Decidable b] {x : Except Fault System},
      (do guard b; x) ≠ .error .disabled → guard b = .ok () := fun {b _ x} hx => by
    by_contra hb
    have hfalse : guard b = .error .disabled := if_neg fun htrue => hb (if_pos htrue)
    rw [hfalse, error_bind] at hx
    exact hx rfl
  cases e with
  | yield c' | sleep c' chan =>
    obtain rfl : c' = c := he
    simp only [step, hcurrent, ok_bind] at h ⊢
    have hg := hguard h
    rw [hg, ok_bind]
    exact ⟨_, hs.back_update hp (guard_ok.1 hg) (fun q => .refl _) (by decide), rfl⟩
  | exit c' =>
    obtain rfl : c' = c := he
    simp only [step, hcurrent, ok_bind] at h ⊢
    have hg := hguard h
    obtain ⟨u, hu, hx⟩ := exitProc_nudged p s.table
    rw [hg, ok_bind, hx]
    exact ⟨_, hs.back_update hp (guard_ok.1 hg).1 hu (by decide), rfl⟩
  | _ => exact he.elim

set_option maxRecDepth 20000

/-- Process 1 runs while three others wait. -/
theorem exists_turn : ∃ s, Reached s ∧ s.cpu 0 = .running 0 ∧ s.locked = false ∧
    (∀ q, (s.table q).state = .running → (s.table q).sliceRemain ≠ 0) ∧
    ∀ q : Fin 3, (s.table (q.succ.castLE (by decide))).state = .runnable := by
  have hcheck : bootCheck (fun s => decide (s.cpu 0 = .running 0 ∧ s.locked = false ∧
      (∀ q, (s.table q).state = .running → (s.table q).sliceRemain ≠ 0) ∧
      ∀ q : Fin 3, (s.table (q.succ.castLE (by decide))).state = .runnable))
      (starvationSetup ++ [.beginPass 0, .dispatch 0 0]) = true := by decide
  obtain ⟨s, hs, h⟩ := reached_of_bootCheck hcheck
  exact ⟨s, hs, of_decide_eq_true h⟩

/-- It yields. -/
theorem next_dispatch_iff_turn : ∃ s u, Reached s ∧
    (∀ q : Fin 3, (s.table (q.succ.castLE (by decide))).state = .runnable) ∧
    step s (.yield 0) = ({ s with table := u } : System).sched 0 0 u ∧
    RoundRobin { s with table := u } 0 0 := by
  obtain ⟨s, hs, hcpu, hfree, hslice, hwait⟩ := exists_turn
  have hc := consistent_reached hs
  have hback : Back { s with table := (Function.update s.table 0
      { s.table 0 with state := .runnable, chan := (s.table 0).chan } : Table) } 0 0 :=
    hc.toLawful.back_update hcpu hfree (fun q => .refl _) (by decide)
  refine ⟨s, _, hs, hwait, ?_, (next_dispatch_iff hback).2 ((levelsFit_iff (fun q => ?_) 0).2 ?_)⟩
  · have hcurrent : s.current 0 = .ok 0 := current_ok.2 hcpu
    have hg : guard (s.locked = false) = .ok () := guard_ok.2 hfree
    simp only [step, hcurrent, ok_bind, hg]
    rfl
  · show LevelFits (Function.update s.table 0 _ q)
    rcases eq_or_ne q 0 with rfl | hne
    · rw [Function.update_self]
      exact hc.level 0
    · rw [Function.update_of_ne hne]
      exact hc.level q
  · intro h
    have hself : (Function.update s.table 0 { s.table 0 with
      state := .runnable, chan := (s.table 0).chan } 0).sliceRemain = 0 := h
    rw [Function.update_self] at hself
    exact absurd hself (hslice 0 (hc.running 0 0 hcpu))

/-! ### Below the lowest level -/

/-- Process 1 alone has come back to CPU 0, RUNNABLE, at a level and with a rest of its
allotment. -/
def alone (level slice : ℤ) : System where
  table := fun p => if p = initproc then
    { Proc.zero with state := .runnable, priority := level, sliceRemain := slice, tickRemain := 1 }
    else .zero
  nextpid := 2
  cpu := fun c => if c = 0 then .running initproc else .idle
  locked := false

theorem back_alone (level slice : ℤ) : Back (alone level slice) 0 initproc := by
  refine ⟨rfl, by simp [alone], fun c i h => ?_, fun c q hc h => ?_, fun c₁ c₂ q hc h₁ h => ?_⟩
  · simp only [alone] at h
    split at h <;> cases h
  · simp [alone, hc] at h
  · simp [alone, hc] at h

/-- After the last tick of level 0 the level is -1, which is no index; and from level -1 the
process, the only one, does not run again. -/
theorem not_roundRobin : (Back (alone 0 0) 0 initproc ∧ ¬RoundRobin (alone 0 0) 0 initproc) ∧
    (Back (alone (-1) 5) 0 initproc ∧ ¬RoundRobin (alone (-1) 5) 0 initproc) := by
  refine ⟨⟨back_alone 0 0, ?_⟩, ⟨back_alone (-1) 5, ?_⟩⟩
  · rintro ⟨s', hs, -⟩
    obtain ⟨q, stay, hsettle, -⟩ := sched_lock hs
    have hslice : ((alone 0 0).table initproc).sliceRemain = 0 := rfl
    have hfits := settle_isOk_iff.1 ⟨_, hsettle⟩
    rw [SettleFits, if_pos hslice] at hfits
    exact absurd hfits.1 (by decide)
  · rintro ⟨s', hs, -, hwithin⟩
    obtain ⟨-, -, hsame⟩ := (back_alone (-1) 5).sched hs
    have hrelegated : ∀ q, (relegated (alone (-1) 5).table initproc q).state = .runnable →
        (relegated (alone (-1) 5).table initproc q).priority < 0 := by decide
    obtain ⟨es, u, q, v, -, hrun, hd⟩ := hwithin ⟨initproc, (hsame initproc).1⟩
    obtain ⟨r, hr, h0⟩ := (step_dispatch hd).1.someLevel
    have hlt := hrelegated r ((hsame r).1 ▸ (quiet_table hrun r).1 ▸ hr)
    rw [← (hsame r).2, ← (quiet_table hrun r).2] at hlt
    omega

end OsProjects.Sched
