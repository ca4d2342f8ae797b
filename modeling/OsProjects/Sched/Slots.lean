import OsProjects.Sched.Model
import OsProjects.Foundation.Loop

/-!
# What one event does to one slot

`step_slot` lists everything an event can do to a process: it is the only place where the events
are taken apart, and every invariant of the table is a case analysis of its conclusion.
-/

namespace OsProjects.Sched

/-! ### Peeling steps -/

@[simp] theorem guard_ok {b : Prop} [Decidable b] {u : Unit} : guard b = .ok u ↔ b := by
  unfold guard; split <;> simp [*]

theorem current_ok {s : System} {c : ℕ} {p : Slot} :
    s.current c = .ok p ↔ s.cpu c = .running p := by
  unfold System.current
  cases s.cpu c <;> simp

theorem index_ok {a : List ℤ} {i x : ℤ} :
    index a i = .ok x ↔ (0 ≤ i ∧ i < a.length) ∧ a.getD i.toNat 0 = x := by
  unfold index
  split <;> simp [*]

/-! ### Changes -/

/-- A parent or a kill mark changes, or a sleeping process wakes up. -/
def Nudged (p p' : Proc) : Prop :=
  ∃ par k st, p' = { p with parent := par, killed := k, state := st } ∧
    (st = p.state ∨ p.state = .sleeping ∧ st = .runnable)

theorem Nudged.refl (p : Proc) : Nudged p p := ⟨_, _, _, rfl, .inl rfl⟩

theorem Nudged.trans {p q r : Proc} (h₁ : Nudged p q) (h₂ : Nudged q r) : Nudged p r := by
  obtain ⟨par, k, st, rfl, hst⟩ := h₁
  obtain ⟨par', k', st', rfl, hst'⟩ := h₂
  refine ⟨par', k', st', rfl, ?_⟩
  simp only at hst'
  rcases hst with rfl | ⟨h, rfl⟩
  · exact hst'
  · rcases hst' with rfl | ⟨h', -⟩
    · exact .inr ⟨h, rfl⟩
    · cases h'

/-- The events in which the process on CPU `c` goes back to the scheduler. -/
def Event.Releases (c : ℕ) : Event → Prop
  | .yield c' => c' = c
  | .sleep c' _ => c' = c
  | .exit c' => c' = c
  | _ => False

/-- What an event `e` from `s` may leave in slot `q`. -/
inductive Change (s : System) (e : Event) (q : Slot) : Proc → Prop
  | nudge {p' : Proc} (h : Nudged (s.table q) p') : Change s e q p'
  | alloc (pid : ℕ) (par : Option Slot) (h : (s.table q).state = .unused) :
      Change s e q { allocproc pid (s.table q) with parent := par }
  | forkDone (h : (s.table q).state = .embryo) :
      Change s e q { s.table q with state := .runnable }
  | forkFail (h : (s.table q).state = .embryo) :
      Change s e q { s.table q with state := .unused, parent := none }
  | reap (h : (s.table q).state = .zombie) : Change s e q (reap (s.table q))
  | boost (c : ℕ) {p' : Proc} (he : e = .boost c) (h : s.cpu c = .running q)
      (hb : boostproc (s.table q) = .ok p') : Change s e q p'
  | dispatch (c : ℕ) {p' : Proc} (he : e = .dispatch c q) (h : Eligible s.table q)
      (hc : charge (s.table q) = .ok p') : Change s e q { p' with state := .running }
  | age (c : ℕ) (p : Slot) {p₁ p' : Proc} (he : e = .dispatch c p) (hlt : q < p)
      (hc : charge (s.table p) = .ok p₁) (ha : age p₁ (s.table q) = .ok p') : Change s e q p'
  | release (c : ℕ) (st : ProcState) (par : Option Slot) (ch : Chan) (k : Bool) {p' : Proc}
      {stay : Bool} (he : e.Releases c) (h : s.cpu c = .running q)
      (hst : st = .runnable ∨ st = .sleeping ∨ st = .zombie)
      (hs : settle { s.table q with state := st, parent := par, chan := ch, killed := k } =
        .ok (p', stay)) :
      Change s e q p'

theorem Change.same {s : System} {e : Event} {q : Slot} : Change s e q (s.table q) :=
  .nudge (.refl _)

/-- A change of one slot only. -/
theorem Change.update {s : System} {e : Event} {p : Slot} {p' : Proc} (h : Change s e p p')
    (q : Slot) : Change s e q (Function.update s.table p p' q) := by
  rcases eq_or_ne q p with rfl | hq
  · rwa [Function.update_self]
  · rw [Function.update_of_ne hq]; exact .same

/-! ### The escalate loop -/

/-- The loop condition `pp != p` stops the loop at the dispatched process, so it covers exactly the
slots in front of it. -/
theorem takeWhile_slots (p : Slot) :
    slots.takeWhile (· ≠ p) = (List.finRange nproc).take p.val := by
  have hlen : slots.length = nproc := List.length_finRange
  refine List.takeWhile_eq_take_findIdx_not.trans ?_
  congr 1
  refine (List.findIdx_eq (by rw [hlen]; exact p.isLt)).2 ⟨by simp [slots], fun j hj => ?_⟩
  have : (⟨j, hj.trans p.isLt⟩ : Slot) ≠ p := fun h => by simp [← h] at hj
  simpa [slots] using this

theorem mem_takeWhile_slots {p q : Slot} : q ∈ slots.takeWhile (· ≠ p) ↔ q < p := by
  rw [takeWhile_slots, List.mem_take_iff_getElem]
  simp only [List.getElem_finRange, List.length_finRange]
  constructor
  · rintro ⟨i, hi, rfl⟩
    exact Fin.lt_def.2 (by simp; omega)
  · intro h
    exact ⟨q.val, lt_min (Fin.lt_def.1 h) q.isLt, by simp⟩

theorem nodup_takeWhile_slots (p : Slot) : (slots.takeWhile (· ≠ p)).Nodup :=
  (List.takeWhile_sublist _).nodup (List.nodup_finRange _)

/-- The escalate loop ages every process in front of `p` once and leaves the others alone. -/
theorem escalate_ok {p : Slot} {t t' : Table} (h : escalate p t = .ok t') (q : Slot) :
    if q < p then age (t p) (t q) = .ok (t' q) else t' q = t q := by
  have hnd := nodup_takeWhile_slots p
  -- after a prefix of the loop, its slots are aged and the rest is untouched
  have key : ∀ q, if q ∈ slots.takeWhile (· ≠ p) then age (t p) (t q) = .ok (t' q)
      else t' q = t q := by
    refine foldlM_ok_invariant (I := fun pre u => ∀ q,
      if q ∈ pre then age (t p) (t q) = .ok (u q) else u q = t q) h (by simp) ?_
    intro pre x u u' hpre hI hx q
    have hxp : x ≠ p := by
      have := mem_takeWhile_slots.1 (hpre.subset (by simp : x ∈ pre ++ [x]))
      exact this.ne
    have hpp : u p = t p := by
      have := hI p
      rwa [if_neg fun hp => (mem_takeWhile_slots.1
        (hpre.subset (by simp [hp] : p ∈ pre ++ [x]))).false] at this
    have hxpre : x ∉ pre := fun hmem => by
      have hnd' : (pre ++ [x]).Nodup := hpre.sublist.nodup hnd
      exact (List.nodup_append'.1 hnd').2.2 hmem (by simp)
    obtain ⟨v, hv, hu'⟩ := bind_ok.1 hx
    obtain rfl := pure_ok.1 hu'
    have hux : u x = t x := by simpa [hxpre] using hI x
    rcases eq_or_ne q x with rfl | hq
    · simpa [hpp, hux] using hv
    · simpa [hq] using hI q
  simpa only [mem_takeWhile_slots] using key q

/-- A dispatch charges `p` and makes it RUNNING, ages the RUNNABLE processes in front of it, and
leaves those behind it alone. -/
theorem dispatch_ok {p : Slot} {t t' : Table} (h : dispatch p t = .ok t') :
    ∃ p₁, charge (t p) = .ok p₁ ∧ t' p = { p₁ with state := .running } ∧
      ∀ q, q ≠ p → if q < p then age p₁ (t q) = .ok (t' q) else t' q = t q := by
  obtain ⟨p₁, hp₁, h⟩ := bind_ok.1 h
  obtain ⟨u, hu, h⟩ := bind_ok.1 h
  obtain rfl := pure_ok.1 h
  have hesc := escalate_ok hu
  refine ⟨p₁, hp₁, ?_, fun q hq => ?_⟩
  · have := hesc p
    rw [if_neg (lt_irrefl p), Function.update_self] at this
    rw [Function.update_self, this]
  · have := hesc q
    simpa only [Function.update_of_ne hq, Function.update_self] using this

/-! ### The other events -/

theorem wakeup1_nudged (chan : Chan) (t : Table) (q : Slot) : Nudged (t q) (wakeup1 chan t q) := by
  unfold wakeup1
  split
  · rename_i h
    exact ⟨_, _, _, rfl, .inr ⟨h.1, rfl⟩⟩
  · exact .refl _

theorem reparent_nudged (p : Slot) (t : Table) (q' q : Slot) :
    Nudged (t q) (reparent p t q' q) := by
  unfold reparent
  split
  · have h₁ : Nudged (t q)
        (Function.update t q' { t q' with parent := some initproc } q) := by
      rcases eq_or_ne q q' with rfl | hq
      · rw [Function.update_self]; exact ⟨_, _, _, rfl, .inl rfl⟩
      · rw [Function.update_of_ne hq]; exact .refl _
    dsimp only
    split
    · exact h₁.trans (wakeup1_nudged _ _ _)
    · exact h₁
  · exact .refl _

/-- `exit` wakes and reparents; the exiting process itself becomes a zombie. -/
theorem exitProc_nudged (p : Slot) (t : Table) :
    ∃ u : Table, (∀ q, Nudged (t q) (u q)) ∧
      exitProc p t = Function.update u p { u p with state := .zombie } := by
  unfold exitProc
  refine ⟨_, fun q => ?_, rfl⟩
  have hfold : ∀ (l : List Slot) (t : Table) (q : Slot),
      Nudged (t q) (l.foldl (reparent p) t q) := by
    intro l
    induction l with
    | nil => exact fun t q => .refl _
    | cons a l ih => exact fun t q => (reparent_nudged p t a q).trans (ih _ q)
  refine Nudged.trans ?_ (hfold _ _ q)
  cases (t p).parent with
  | some par => exact wakeup1_nudged _ _ _
  | none => exact .refl _

theorem killProc_nudged (p : Proc) : Nudged p (killProc p) := by
  refine ⟨_, _, _, rfl, ?_⟩
  split
  · exact .inr ⟨‹_›, rfl⟩
  · exact .inl rfl

/-! ### The inversion lemma -/

/-- A dispatch, on the CPU and on the dispatched process. -/
theorem step_dispatch {s t : System} {c : ℕ} {p : Slot} (h : step s (.dispatch c p) = .ok t) :
    Eligible s.table p ∧ t.cpu = Function.update s.cpu c (.running p) ∧
      ∃ p₁, charge (s.table p) = .ok p₁ ∧ t.table p = { p₁ with state := .running } ∧
        ∀ q, q ≠ p → if q < p then age p₁ (s.table q) = .ok (t.table q)
          else t.table q = s.table q := by
  simp only [step] at h
  split at h
  · obtain ⟨_, hg, h⟩ := bind_ok.1 h
    obtain ⟨t', ht', h⟩ := bind_ok.1 h
    obtain rfl := pure_ok.1 h
    have hel := List.find?_some (guard_ok.1 hg)
    exact ⟨(of_decide_eq_true hel).2, rfl, dispatch_ok ht'⟩
  · cases h

/-- Coming back to the scheduler from a table that agrees with `s.table` up to nudges. -/
theorem sched_slot {s t : System} {e : Event} {c : ℕ} {p : Slot} {u : Table} {st : ProcState}
    (ch : Chan) (he : e.Releases c) (hcpu : s.cpu c = .running p)
    (hu : ∀ q, Nudged (s.table q) (u q)) (hst : st = .runnable ∨ st = .sleeping ∨ st = .zombie)
    (h : s.sched c p (Function.update u p { u p with state := st, chan := ch }) = .ok t)
    (q : Slot) : Change s e q (t.table q) := by
  obtain ⟨⟨p', stay⟩, hs, h⟩ := bind_ok.1 h
  obtain rfl := pure_ok.1 h
  rw [Function.update_self] at hs
  rcases eq_or_ne q p with rfl | hq
  · obtain ⟨par, k, st', hp, -⟩ := hu q
    rw [hp] at hs
    simpa using Change.release c st par ch k he hcpu hst hs
  · have : Function.update (Function.update u p { u p with state := st, chan := ch }) p p' q
        = u q := by simp [hq]
    simpa [this] using Change.nudge (hu q)

/-- **Everything an event can do to a slot.** -/
theorem step_slot {s t : System} {e : Event} (h : step s e = .ok t) (q : Slot) :
    Change s e q (t.table q) := by
  cases e with
  | beginPass c =>
    obtain ⟨-, -, h⟩ := bind_ok.1 h
    obtain rfl := pure_ok.1 h
    exact .same
  | dispatch c p =>
    obtain ⟨hel, -, p₁, hp₁, hp, hrest⟩ := step_dispatch h
    rcases eq_or_ne q p with rfl | hq
    · rw [hp]
      exact .dispatch c rfl hel hp₁
    · have hq' := hrest q hq
      split at hq'
      · exact .age c p rfl ‹_› hp₁ hq'
      · rw [hq']; exact .same
  | endPass c =>
    simp only [step] at h
    split at h
    · obtain ⟨-, -, h⟩ := bind_ok.1 h
      obtain rfl := pure_ok.1 h
      exact .same
    · cases h
  | yield c =>
    obtain ⟨p, hp, h⟩ := bind_ok.1 h
    obtain ⟨-, -, h⟩ := bind_ok.1 h
    exact sched_slot (e := .yield c) (s.table p).chan rfl (current_ok.1 hp) (fun q => .refl _)
      (.inl rfl) h q
  | sleep c chan =>
    obtain ⟨p, hp, h⟩ := bind_ok.1 h
    obtain ⟨-, -, h⟩ := bind_ok.1 h
    exact sched_slot (e := .sleep c chan) chan rfl (current_ok.1 hp) (fun q => .refl _)
      (.inr (.inl rfl)) h q
  | exit c =>
    obtain ⟨p, hp, h⟩ := bind_ok.1 h
    obtain ⟨-, -, h⟩ := bind_ok.1 h
    obtain ⟨u, hu, hx⟩ := exitProc_nudged p s.table
    rw [hx] at h
    exact sched_slot (e := .exit c) (u p).chan rfl (current_ok.1 hp) hu (.inr (.inr rfl)) h q
  | wait c child =>
    obtain ⟨p, hp, h⟩ := bind_ok.1 h
    obtain ⟨_, hg, h⟩ := bind_ok.1 h
    obtain rfl := pure_ok.1 h
    have hz := List.find?_some (guard_ok.1 hg).2
    exact Change.update (.reap (of_decide_eq_true hz).2) q
  | fork c child =>
    obtain ⟨p, hp, h⟩ := bind_ok.1 h
    obtain ⟨_, hg, h⟩ := bind_ok.1 h
    obtain rfl := pure_ok.1 h
    have hu := List.find?_some (guard_ok.1 hg).2
    exact Change.update (.alloc _ _ (of_decide_eq_true hu)) q
  | forkDone child =>
    obtain ⟨_, hg, h⟩ := bind_ok.1 h
    obtain rfl := pure_ok.1 h
    exact Change.update (.forkDone (guard_ok.1 hg)) q
  | forkFail child =>
    obtain ⟨_, hg, h⟩ := bind_ok.1 h
    obtain rfl := pure_ok.1 h
    exact Change.update (.forkFail (guard_ok.1 hg)) q
  | boost c =>
    obtain ⟨p, hp, h⟩ := bind_ok.1 h
    obtain ⟨p', hb, h⟩ := bind_ok.1 h
    obtain rfl := pure_ok.1 h
    exact Change.update (.boost c rfl (current_ok.1 hp) hb) q
  | wakeup chan =>
    obtain ⟨-, -, h⟩ := bind_ok.1 h
    obtain rfl := pure_ok.1 h
    exact .nudge (wakeup1_nudged _ _ _)
  | kill pid =>
    simp only [step] at h
    split at h
    · obtain ⟨-, -, h⟩ := bind_ok.1 h
      obtain rfl := pure_ok.1 h
      exact Change.update (.nudge (killProc_nudged _)) q
    · cases h

theorem sched_cpu {s t : System} {c : ℕ} {p : Slot} {u : Table} (h : s.sched c p u = .ok t) :
    ∃ i, t.cpu = Function.update s.cpu c (.scan i) := by
  obtain ⟨⟨p', stay⟩, -, h⟩ := bind_ok.1 h
  obtain rfl := pure_ok.1 h
  exact ⟨_, rfl⟩

/-- A CPU that runs a process has run it before and keeps it, or has just dispatched it. -/
theorem step_cpu {s t : System} {e : Event} (h : step s e = .ok t) {c : ℕ} {p : Slot}
    (hp : t.cpu c = .running p) :
    (s.cpu c = .running p ∧ ¬ e.Releases c) ∨ e = .dispatch c p := by
  -- an event that only moves one CPU out of `running` states
  have moved : ∀ c' x, (∀ q, x ≠ Cpu.running q) → t.cpu = Function.update s.cpu c' x →
      c' ≠ c ∧ s.cpu c = .running p := by
    intro c' x hx ht
    rw [ht] at hp
    rcases eq_or_ne c c' with rfl | hc
    · rw [Function.update_self] at hp; exact absurd hp (hx p)
    · rw [Function.update_of_ne hc] at hp; exact ⟨hc.symm, hp⟩
  cases e with
  | beginPass c' =>
    obtain ⟨-, -, h⟩ := bind_ok.1 h
    exact .inl ⟨(moved c' (.scan 0) (by simp) (by rw [← pure_ok.1 h])).2, id⟩
  | dispatch c' p' =>
    obtain ⟨-, hcpu, -⟩ := step_dispatch h
    rw [hcpu] at hp
    rcases eq_or_ne c c' with rfl | hc
    · rw [Function.update_self] at hp
      exact .inr (by rw [Cpu.running.inj hp])
    · rw [Function.update_of_ne hc] at hp; exact .inl ⟨hp, id⟩
  | endPass c' =>
    simp only [step] at h
    split at h
    · obtain ⟨-, -, h⟩ := bind_ok.1 h
      exact .inl ⟨(moved c' .idle (by simp) (by rw [← pure_ok.1 h])).2, id⟩
    · cases h
  | yield c' =>
    obtain ⟨p', -, h⟩ := bind_ok.1 h
    obtain ⟨-, -, h⟩ := bind_ok.1 h
    obtain ⟨i, hi⟩ := sched_cpu h
    exact .inl (moved c' (.scan i) (by simp) hi).symm
  | sleep c' chan =>
    obtain ⟨p', -, h⟩ := bind_ok.1 h
    obtain ⟨-, -, h⟩ := bind_ok.1 h
    obtain ⟨i, hi⟩ := sched_cpu h
    exact .inl (moved c' (.scan i) (by simp) hi).symm
  | exit c' =>
    obtain ⟨p', -, h⟩ := bind_ok.1 h
    obtain ⟨-, -, h⟩ := bind_ok.1 h
    obtain ⟨i, hi⟩ := sched_cpu h
    exact .inl (moved c' (.scan i) (by simp) hi).symm
  | wait c' child =>
    obtain ⟨p', -, h⟩ := bind_ok.1 h
    obtain ⟨-, -, h⟩ := bind_ok.1 h
    obtain rfl := pure_ok.1 h
    exact .inl ⟨hp, id⟩
  | fork c' child =>
    obtain ⟨p', -, h⟩ := bind_ok.1 h
    obtain ⟨-, -, h⟩ := bind_ok.1 h
    obtain rfl := pure_ok.1 h
    exact .inl ⟨hp, id⟩
  | forkDone child =>
    obtain ⟨-, -, h⟩ := bind_ok.1 h
    obtain rfl := pure_ok.1 h
    exact .inl ⟨hp, id⟩
  | forkFail child =>
    obtain ⟨-, -, h⟩ := bind_ok.1 h
    obtain rfl := pure_ok.1 h
    exact .inl ⟨hp, id⟩
  | boost c' =>
    obtain ⟨p', -, h⟩ := bind_ok.1 h
    obtain ⟨p'', -, h⟩ := bind_ok.1 h
    obtain rfl := pure_ok.1 h
    exact .inl ⟨hp, id⟩
  | wakeup chan =>
    obtain ⟨-, -, h⟩ := bind_ok.1 h
    obtain rfl := pure_ok.1 h
    exact .inl ⟨hp, id⟩
  | kill pid =>
    simp only [step] at h
    split at h
    · obtain ⟨-, -, h⟩ := bind_ok.1 h
      obtain rfl := pure_ok.1 h
      exact .inl ⟨hp, id⟩
    · cases h

end OsProjects.Sched
