import Mathlib.Tactic

/-!
# Loops with an early exit

A C loop whose body may leave the function early is `List.foldlM` in `Except`: the state is
threaded through the elements, and the first error ends the loop.  Nothing here fixes what the
state, the elements or the errors are.

* `bind_ok`, `bind_error`: how a sequence of two statements ends;
* `foldlM_ok_split`: a finished loop passed every element, in a state its predecessors produced;
* `foldlM_error_iff`: a loop that stops does so at an element, after finishing the ones before;
* `foldlM_ok_invariant`, `foldlM_total`: the invariant rule, for loops
  that finish, for loops that stop early, and for total correctness;
* `foldlM_ok_map`: a loop seen through a projection of its state;
* `Raises`: which errors a computation can end in, with one rule for each way to build one.
-/

namespace OsProjects

universe u v

variable {ε : Type u} {σ β : Type v} {α : Type*}

theorem bind_ok {x : Except ε σ} {f : σ → Except ε β} {b : β} :
    (x >>= f) = .ok b ↔ ∃ a, x = .ok a ∧ f a = .ok b := by
  cases x with
  | error e => simp [bind, Except.bind]
  | ok a => simp [bind, Except.bind]

theorem bind_error {x : Except ε σ} {f : σ → Except ε β} {e : ε} :
    (x >>= f) = .error e ↔ x = .error e ∨ ∃ a, x = .ok a ∧ f a = .error e := by
  cases x with
  | error e' => simp [bind, Except.bind]
  | ok a => simp [bind, Except.bind]

@[simp] theorem ok_bind (a : σ) (f : σ → Except ε β) : ((Except.ok a : Except ε σ) >>= f) = f a :=
  rfl

@[simp] theorem error_bind (e : ε) (f : σ → Except ε β) :
    ((Except.error e : Except ε σ) >>= f) = .error e := rfl

@[simp] theorem pure_ok {a b : σ} : (pure a : Except ε σ) = .ok b ↔ a = b :=
  ⟨fun h => Except.ok.inj h, fun h => h ▸ rfl⟩

theorem pure_ne_error {a : σ} {e : ε} : (pure a : Except ε σ) ≠ .error e := by
  intro h
  cases h

section FoldlM

variable {f : σ → α → Except ε σ} {xs pre suf : List α} {x : α} {s t : σ} {e : ε}

@[simp] theorem foldlM_nil_ok : [].foldlM f s = .ok t ↔ s = t := pure_ok

theorem foldlM_cons_ok :
    (x :: xs).foldlM f s = .ok t ↔ ∃ s', f s x = .ok s' ∧ xs.foldlM f s' = .ok t := by
  rw [List.foldlM_cons, bind_ok]

theorem foldlM_append_ok :
    (pre ++ suf).foldlM f s = .ok t ↔ ∃ s', pre.foldlM f s = .ok s' ∧ suf.foldlM f s' = .ok t := by
  rw [List.foldlM_append, bind_ok]

/-- Nested loops are one loop. -/
theorem foldlM_flatMap {γ : Type*} {g : γ → List α} {ys : List γ} :
    (ys.flatMap g).foldlM f s = ys.foldlM (fun s y => (g y).foldlM f s) s := by
  induction ys generalizing s with
  | nil => rfl
  | cons y ys ih =>
    rw [List.flatMap_cons, List.foldlM_append, List.foldlM_cons]
    exact congrArg (_ >>= ·) (funext fun s' => ih)

/-- A finished loop passed every element. -/
theorem foldlM_ok_split (h : (pre ++ x :: suf).foldlM f s = .ok t) :
    ∃ s₁ s₂, pre.foldlM f s = .ok s₁ ∧ f s₁ x = .ok s₂ ∧ suf.foldlM f s₂ = .ok t := by
  obtain ⟨s₁, h₁, h₂⟩ := foldlM_append_ok.1 h
  obtain ⟨s₂, hx, h₃⟩ := foldlM_cons_ok.1 h₂
  exact ⟨s₁, s₂, h₁, hx, h₃⟩

/-- A loop stops with an error exactly when some element does, the ones before it being passed. -/
theorem foldlM_error_iff :
    xs.foldlM f s = .error e ↔
      ∃ pre x suf s', xs = pre ++ x :: suf ∧ pre.foldlM f s = .ok s' ∧ f s' x = .error e := by
  induction xs generalizing s with
  | nil => simp [pure, Except.pure]
  | cons y ys ih =>
    rw [List.foldlM_cons, bind_error]
    constructor
    · rintro (h | ⟨s₁, h₁, h₂⟩)
      · exact ⟨[], y, ys, s, rfl, rfl, h⟩
      · obtain ⟨pre, x, suf, s', rfl, hpre, hx⟩ := ih.1 h₂
        exact ⟨y :: pre, x, suf, s', rfl, foldlM_cons_ok.2 ⟨s₁, h₁, hpre⟩, hx⟩
    · rintro ⟨pre, x, suf, s', heq, hpre, hx⟩
      cases pre with
      | nil =>
        obtain ⟨rfl, rfl⟩ := List.cons.inj heq
        obtain rfl := foldlM_nil_ok.1 hpre
        exact .inl hx
      | cons z pre =>
        obtain ⟨rfl, rfl⟩ := List.cons.inj heq
        obtain ⟨s₁, h₁, h₂⟩ := foldlM_cons_ok.1 hpre
        exact .inr ⟨s₁, h₁, ih.2 ⟨pre, x, suf, s', rfl, h₂, hx⟩⟩

/-- The invariant rule: what holds at the start and is kept by every element holds at the end.
The invariant may speak about the elements already passed. -/
theorem foldlM_ok_invariant {I : List α → σ → Prop} (h : xs.foldlM f s = .ok t) (hs : I [] s)
    (hstep : ∀ pre x s s', pre ++ [x] <+: xs → I pre s → f s x = .ok s' → I (pre ++ [x]) s') :
    I xs t := by
  suffices ∀ pre ys s, xs = pre ++ ys → I pre s → ys.foldlM f s = .ok t → I xs t from
    this [] xs s rfl hs h
  intro pre ys
  induction ys generalizing pre with
  | nil =>
    intro s hxs hI hr
    obtain rfl := foldlM_nil_ok.1 hr
    simpa [hxs] using hI
  | cons y ys ih =>
    intro s hxs hI hr
    obtain ⟨s', hy, hr'⟩ := foldlM_cons_ok.1 hr
    exact ih (pre ++ [y]) s' (by simp [hxs]) (hstep pre y s s' ⟨ys, by simp [hxs]⟩ hI hy) hr'

/-- The invariant rule for an invariant of the state alone. -/
theorem foldlM_ok_preserves {I : σ → Prop} (h : xs.foldlM f s = .ok t) (hs : I s)
    (hstep : ∀ x ∈ xs, ∀ s s', I s → f s x = .ok s' → I s') : I t :=
  foldlM_ok_invariant (I := fun _ => I) h hs fun pre x s s' hp =>
    hstep x (hp.subset (by simp)) s s'

/-- The total rule: if every element can be passed from a state with the invariant, the loop
finishes in such a state. -/
theorem foldlM_total {I : List α → σ → Prop} (hs : I [] s)
    (hstep : ∀ pre x s, pre ++ [x] <+: xs → I pre s → ∃ s', f s x = .ok s' ∧ I (pre ++ [x]) s') :
    ∃ t, xs.foldlM f s = .ok t ∧ I xs t := by
  suffices ∀ pre ys s, xs = pre ++ ys → I pre s → ∃ t, ys.foldlM f s = .ok t ∧ I xs t from
    this [] xs s rfl hs
  intro pre ys
  induction ys generalizing pre with
  | nil =>
    intro s hxs hI
    exact ⟨s, rfl, by simpa [hxs] using hI⟩
  | cons y ys ih =>
    intro s hxs hI
    obtain ⟨s', hy, hI'⟩ := hstep pre y s ⟨ys, by simp [hxs]⟩ hI
    obtain ⟨t, ht, hIt⟩ := ih (pre ++ [y]) s' (by simp [hxs]) hI'
    exact ⟨t, foldlM_cons_ok.2 ⟨s', hy, ht⟩, hIt⟩

/-- A loop seen through a projection of its state. -/
theorem foldlM_ok_map {τ : Type v} {π : σ → τ} {g : τ → α → Except ε τ} (h : xs.foldlM f s = .ok t)
    (hstep : ∀ x ∈ xs, ∀ s s', f s x = .ok s' → g (π s) x = .ok (π s')) :
    xs.foldlM g (π s) = .ok (π t) := by
  induction xs generalizing s with
  | nil =>
    obtain rfl := foldlM_nil_ok.1 h
    rfl
  | cons x xs ih =>
    obtain ⟨s', hx, hr⟩ := foldlM_cons_ok.1 h
    exact foldlM_cons_ok.2 ⟨π s', hstep x (by simp) s s' hx,
      ih hr fun y hy => hstep y (by simp [hy])⟩

/-- A finished loop passed each element, from some state. -/
theorem foldlM_ok_mem (h : xs.foldlM f s = .ok t) (hx : x ∈ xs) : ∃ s₁ s₂, f s₁ x = .ok s₂ := by
  obtain ⟨pre, suf, rfl⟩ := List.append_of_mem hx
  obtain ⟨s₁, s₂, -, h, -⟩ := foldlM_ok_split h
  exact ⟨s₁, s₂, h⟩

/-- A loop whose elements keep the state. -/
theorem foldlM_of_self (h : ∀ x ∈ xs, f s x = .ok s) : xs.foldlM f s = .ok s := by
  induction xs with
  | nil => rfl
  | cons x xs ih =>
    obtain ⟨hx, hxs⟩ := List.forall_mem_cons.1 h
    exact foldlM_cons_ok.2 ⟨s, hx, ih hxs⟩

/-- Two ways to go on that are the same from where the first part comes. -/
theorem bind_eq_of_ok {x : Except ε σ} {f g : σ → Except ε β} (h : ∀ a, x = .ok a → f a = g a) :
    x >>= f = x >>= g := by
  cases hx : x with
  | error e => rfl
  | ok a => exact h a hx

/-- Two loops that do the same in the turns that are reached. -/
theorem foldlM_eq_of_reached {g : σ → α → Except ε σ}
    (h : ∀ pre x suf s', xs = pre ++ x :: suf → pre.foldlM f s = .ok s' → f s' x = g s' x) :
    xs.foldlM f s = xs.foldlM g s := by
  induction xs generalizing s with
  | nil => rfl
  | cons y ys ih =>
    rw [List.foldlM_cons, List.foldlM_cons, ← h [] y ys s rfl rfl]
    refine bind_eq_of_ok fun s₁ h₁ => ih fun pre x suf s' heq hpre => ?_
    refine h (y :: pre) x suf s' (by rw [heq, List.cons_append]) ?_
    exact foldlM_cons_ok.2 ⟨s₁, h₁, hpre⟩

end FoldlM

/-- The turns of a loop over a range that are before one. -/
theorem range_eq_append_cons {n m : ℕ} {pre suf : List ℕ} (h : List.range n = pre ++ m :: suf) :
    m < n ∧ pre = List.range m := by
  have hm : m < n := List.mem_range.1 (h ▸ by simp)
  have hlen : pre.length = m := by
    have hget : (List.range n)[pre.length]? = some m := by rw [h]; simp
    rw [List.getElem?_eq_some_iff] at hget
    obtain ⟨hlt, hget⟩ := hget
    simpa using hget
  refine ⟨hm, ?_⟩
  have htake := congrArg (List.take m) h
  rw [List.take_range, min_eq_left hm.le, List.take_append_of_le_length hlen.ge,
    List.take_of_length_le hlen.le] at htake
  exact htake.symm

/-- Two loops whose elements do the same pair by pair. -/
theorem foldlM_forall₂ {m : Type u → Type v} [Monad m] {α β : Type*} {σ : Type u} {f : σ → α → m σ}
    {g : σ → β → m σ} {xs : List α} {ys : List β} {s : σ}
    (h : List.Forall₂ (fun x y => ∀ s, f s x = g s y) xs ys) : xs.foldlM f s = ys.foldlM g s := by
  induction h generalizing s with
  | nil => rfl
  | cons hxy _ ih =>
    rw [List.foldlM_cons, List.foldlM_cons, hxy]
    exact congrArg (_ >>= ·) (funext fun s' => ih)

/-- A loop without a state finishes exactly when it passes each element. -/
theorem foldlM_unit_ok {f : α → Except ε Unit} {xs : List α} {u : Unit} :
    xs.foldlM (fun _ x => f x) () = .ok u ↔ ∀ x ∈ xs, f x = .ok () := by
  induction xs with
  | nil => simp [pure, Except.pure]
  | cons x xs ih =>
    simp only [foldlM_cons_ok, List.forall_mem_cons, ih]
    exact ⟨fun ⟨_, h, hr⟩ => ⟨h, hr⟩, fun ⟨h, hr⟩ => ⟨(), h, hr⟩⟩

/-! ### Which errors a computation can raise -/

/-- Every error of the computation is one of `E`. -/
def Raises (E : ε → Prop) (x : Except ε σ) : Prop := ∀ e, x = .error e → E e

namespace Raises

variable {E : ε → Prop} {x : Except ε σ}

theorem ok (a : σ) : Raises E (.ok a : Except ε σ) := by rintro e ⟨⟩

theorem pure (a : σ) : Raises E (Pure.pure a : Except ε σ) := ok a

theorem error {e : ε} (h : E e) : Raises E (.error e : Except ε σ) := by
  rintro e' ⟨⟩
  exact h

theorem bind' {f : σ → Except ε β} (hx : Raises E x) (hf : ∀ a, x = .ok a → Raises E (f a)) :
    Raises E (x >>= f) := by
  intro e he
  rcases bind_error.1 he with h | ⟨a, ha, h⟩
  · exact hx e h
  · exact hf a ha e h

theorem bind {f : σ → Except ε β} (hx : Raises E x) (hf : ∀ a, Raises E (f a)) :
    Raises E (x >>= f) := hx.bind' fun a _ => hf a

theorem ite' {c : Prop} [Decidable c] {y : Except ε σ} (hx : c → Raises E x)
    (hy : ¬c → Raises E y) : Raises E (if c then x else y) := by
  split
  · exact hx ‹_›
  · exact hy ‹_›

theorem ite {c : Prop} [Decidable c] {y : Except ε σ} (hx : Raises E x) (hy : Raises E y) :
    Raises E (if c then x else y) := ite' (fun _ => hx) fun _ => hy

/-- The errors of a loop are those of the turns it comes to. -/
theorem foldlM_reached {f : σ → α → Except ε σ} {xs : List α} {s : σ}
    (hf : ∀ pre x suf s', xs = pre ++ x :: suf → pre.foldlM f s = .ok s' → Raises E (f s' x)) :
    Raises E (xs.foldlM f s) := by
  intro e he
  obtain ⟨pre, x, suf, s', heq, hpre, hx⟩ := foldlM_error_iff.1 he
  exact hf pre x suf s' heq hpre e hx

theorem foldlM {f : σ → α → Except ε σ} {xs : List α} {s : σ}
    (hf : ∀ x ∈ xs, ∀ s, Raises E (f s x)) : Raises E (xs.foldlM f s) :=
  foldlM_reached fun _ x _ s' heq _ => hf x (heq ▸ by simp) s'

end Raises

end OsProjects
