import OsProjects.Foundation.Loop

/-!
# Reports

A program that makes checks and writes a message for a problem, as a computation in `Except` with a
log of what it does on the way.  A computation is prompt if it stops at the first problem it finds,
with the last words of that stop (`Prompt`); one that goes on has spoilt its log (`Spoilt`).

* `prompt_bind_iff`, `prompt_foldlM_iff`: a sequence and a loop are prompt exactly if the parts that
  are reached are;
* `InStep`: two loops that do the same as long as the first comes to certain elements only;
* `Settled`: a computation is prompt or has spoilt its log, with one rule for each way to build one.
-/

namespace OsProjects

/-- What goes into the log. -/
inductive Event (δ : Type)
  /-- checks are made -/
  | checks
  /-- a problem has been found -/
  | found
  /-- a message is written -/
  | wrote (d : δ)
  deriving DecidableEq

/-- A computation that may stop with an error, and its log. -/
structure Reporting (δ ε α : Type) where
  log : List (Event δ)
  result : Except ε α

namespace Reporting

variable {δ ε α β γ : Type}

instance : Monad (Reporting δ ε) where
  pure a := ⟨[], .ok a⟩
  bind x f :=
    match x.result with
    | .ok a => ⟨x.log ++ (f a).log, (f a).result⟩
    | .error e => ⟨x.log, .error e⟩

/-- A part that makes checks and stops with the last words `last e`. -/
def attempt (last : ε → List (Event δ)) (x : Except ε α) : Reporting δ ε α where
  log := .checks :: match x with
    | .ok _ => []
    | .error e => last e
  result := x

/-- A check after which the computation goes on, with a message or without. -/
def flag (c : Prop) [Decidable c] (ds : List δ) : Reporting δ ε Unit where
  log := .checks :: if c then .found :: ds.map .wrote else []
  result := .ok ()

variable {last : ε → List (Event δ)} {x : Reporting δ ε α} {f : α → Reporting δ ε β} {a : α} {e : ε}

@[simp] theorem result_pure : (pure a : Reporting δ ε α).result = pure a := rfl

@[simp] theorem result_attempt {y : Except ε α} : (attempt last y).result = y := rfl

@[simp] theorem result_flag {c : Prop} [Decidable c] {ds : List δ} :
    (flag c ds : Reporting δ ε Unit).result = .ok () := rfl

@[simp] theorem result_bind : (x >>= f).result = x.result >>= fun a => (f a).result := by
  show (match x.result with
    | .ok a => _
    | .error e => _ : Reporting δ ε β).result = _
  cases x.result <;> rfl

theorem bind_of_ok (h : x.result = .ok a) :
    x >>= f = ⟨x.log ++ (f a).log, (f a).result⟩ := by
  show (match x.result with
    | .ok a => _
    | .error e => _ : Reporting δ ε β) = _
  rw [h]

theorem bind_of_error (h : x.result = .error e) : x >>= f = ⟨x.log, .error e⟩ := by
  show (match x.result with
    | .ok a => _
    | .error e => _ : Reporting δ ε β) = _
  rw [h]

instance : LawfulMonad (Reporting δ ε) := by
  refine LawfulMonad.mk' _ (fun x => ?_) (fun a f => ?_) fun x f g => ?_
  · obtain ⟨log, result⟩ := x
    cases result with
    | ok a => exact congrArg (Reporting.mk · _) (List.append_nil log)
    | error e => rfl
  · rw [bind_of_ok rfl]
    rfl
  · cases hx : x.result with
    | error e => rw [bind_of_error hx, bind_of_error hx, bind_of_error rfl]
    | ok a =>
      rw [bind_of_ok hx, bind_of_ok hx]
      cases hf : (f a).result with
      | error e => rw [bind_of_error rfl, bind_of_error hf]
      | ok b => rw [bind_of_ok rfl, bind_of_ok hf, List.append_assoc]

/-- Two ways to go on that are the same from where the first part comes. -/
theorem bind_congr_of_ok {g : α → Reporting δ ε β} (h : ∀ a, x.result = .ok a → f a = g a) :
    x >>= f = x >>= g := by
  cases hx : x.result with
  | error e => rw [bind_of_error hx, bind_of_error hx]
  | ok a => rw [bind_of_ok hx, bind_of_ok hx, h a hx]

@[simp] theorem result_foldlM {f : β → γ → Reporting δ ε β} {xs : List γ} {s : β} :
    (xs.foldlM f s).result = xs.foldlM (fun s x => (f s x).result) s := by
  induction xs generalizing s with
  | nil => rfl
  | cons x xs ih =>
    rw [List.foldlM_cons, List.foldlM_cons, result_bind]
    exact congrArg (_ >>= ·) (funext fun s' => ih)

/-- Two loops that do the same in the turns that are reached. -/
theorem foldlM_congr_of_reached {f g : β → γ → Reporting δ ε β} {xs : List γ} {s : β}
    (h : ∀ pre x suf s', xs = pre ++ x :: suf → (pre.foldlM f s).result = .ok s' →
      f s' x = g s' x) : xs.foldlM f s = xs.foldlM g s := by
  induction xs generalizing s with
  | nil => rfl
  | cons y ys ih =>
    rw [List.foldlM_cons, List.foldlM_cons, ← h [] y ys s rfl rfl]
    refine bind_congr_of_ok fun s₁ h₁ => ih fun pre x suf s' heq hpre => ?_
    refine h (y :: pre) x suf s' (by rw [heq, List.cons_append]) ?_
    rw [List.foldlM_cons, result_bind, h₁]
    exact hpre

/-! ### Two loops in step -/

section InStep

variable {γ' ι : Type} {f : β → γ → Reporting δ ε β} {g : β → γ' → Reporting δ ε β} {P : γ → Prop}
  {xs xs₁ : List γ} {ys ys₁ : List γ'}

/-- The loops do the same from every state from which the first comes to elements with `P` only. -/
def InStep (f : β → γ → Reporting δ ε β) (g : β → γ' → Reporting δ ε β) (P : γ → Prop)
    (xs : List γ) (ys : List γ') : Prop :=
  ∀ s, (∀ pre x suf s', xs = pre ++ x :: suf → (pre.foldlM f s).result = .ok s' → P x) →
    xs.foldlM f s = ys.foldlM g s

namespace InStep

theorem nil : InStep f g P [] [] := fun _ _ => rfl

theorem cons {x : γ} {y : γ'} (hx : P x → ∀ s, f s x = g s y)
    (hxs : P x → ∀ s s', (f s x).result = .ok s' → InStep f g P xs ys) :
    InStep f g P (x :: xs) (y :: ys) := by
  intro s h
  have hP : P x := h [] x xs s rfl rfl
  rw [List.foldlM_cons, List.foldlM_cons, ← hx hP s]
  refine bind_congr_of_ok fun s₁ h₁ => hxs hP s s₁ h₁ s₁ fun pre x' suf s' heq hpre => ?_
  refine h (x :: pre) x' suf s' (by rw [heq, List.cons_append]) ?_
  rw [List.foldlM_cons, result_bind, h₁]
  exact hpre

theorem append (hxs : InStep f g P xs ys) (hxs₁ : InStep f g P xs₁ ys₁) :
    InStep f g P (xs ++ xs₁) (ys ++ ys₁) := by
  intro s h
  rw [List.foldlM_append, List.foldlM_append, ← hxs s fun pre x suf s' heq hpre =>
    h pre x (suf ++ xs₁) s' (by rw [heq, List.append_assoc, List.cons_append]) hpre]
  refine bind_congr_of_ok fun s₁ h₁ => hxs₁ s₁ fun pre x suf s' heq hpre => ?_
  refine h (xs ++ pre) x suf s' (by rw [heq, List.append_assoc]) ?_
  rw [List.foldlM_append, result_bind, h₁]
  exact hpre

theorem flatMap {p : ι → List γ} {q : ι → List γ'} {ks : List ι}
    (h : ∀ k ∈ ks, InStep f g P (p k) (q k)) : InStep f g P (ks.flatMap p) (ks.flatMap q) := by
  induction ks with
  | nil => exact nil
  | cons k ks ih =>
    obtain ⟨hk, hks⟩ := List.forall_mem_cons.1 h
    exact hk.append (ih hks)

theorem map {p : ι → γ} {q : ι → γ'} {ks : List ι}
    (h : ∀ k ∈ ks, P (p k) → ∀ s, f s (p k) = g s (q k)) :
    InStep f g P (ks.map p) (ks.map q) := by
  induction ks with
  | nil => exact nil
  | cons k ks ih =>
    obtain ⟨hk, hks⟩ := List.forall_mem_cons.1 h
    exact cons hk fun _ _ _ _ => ih hks

end InStep

end InStep

/-! ### Computations that stop promptly -/

/-- No problem has been found. -/
def Quiet (log : List (Event δ)) : Prop := ∀ e ∈ log, e = .checks

/-- The first problem that the computation finds ends it. -/
def Prompt (last : ε → List (Event δ)) (x : Reporting δ ε α) : Prop :=
  match x.result with
  | .ok _ => Quiet x.log
  | .error e => ∃ pre, Quiet pre ∧ x.log = pre ++ last e

/-- Checks are made after a problem has been found. -/
def Late (log : List (Event δ)) : Prop := ∃ pre suf, log = pre ++ .found :: suf ∧ .checks ∈ suf

/-- A problem has been found, and more is checked or the computation goes on. -/
def Spoilt (x : Reporting δ ε α) : Prop := (∃ a, x.result = .ok a) ∧ .found ∈ x.log ∨ Late x.log

/-- An error is that of a check. -/
def Regular (x : Reporting δ ε α) : Prop := ∀ e, x.result = .error e → .checks ∈ x.log

/-- The computation is prompt or has spoilt its log. -/
structure Settled (last : ε → List (Event δ)) (x : Reporting δ ε α) : Prop where
  regular : Regular x
  cases : Prompt last x ∨ Spoilt x

theorem prompt_of_ok (h : x.result = .ok a) : Prompt last x ↔ Quiet x.log := by
  rw [Prompt, h]

theorem prompt_of_error (h : x.result = .error e) :
    Prompt last x ↔ ∃ pre, Quiet pre ∧ x.log = pre ++ last e := by
  rw [Prompt, h]

theorem quiet_append {l l' : List (Event δ)} : Quiet (l ++ l') ↔ Quiet l ∧ Quiet l' :=
  List.forall_mem_append

/-- A sequence is prompt exactly if the first part is, and the second from where the first has
come. -/
theorem prompt_bind_iff (hlast : ∀ e, .checks ∉ last e) (hf : ∀ a, Regular (f a)) :
    Prompt last (x >>= f) ↔ Prompt last x ∧ ∀ a, x.result = .ok a → Prompt last (f a) := by
  cases hx : x.result with
  | error e =>
    rw [prompt_of_error hx, bind_of_error hx]
    exact (and_iff_left nofun).symm
  | ok a =>
    have hforall : (∀ a', Except.ok a = (.ok a' : Except ε α) → Prompt last (f a')) ↔
        Prompt last (f a) := ⟨fun h => h a rfl, fun h a' ha => Except.ok.inj ha ▸ h⟩
    rw [hforall, prompt_of_ok hx, bind_of_ok hx]
    cases hfa : (f a).result with
    | ok b =>
      rw [prompt_of_ok hfa]
      exact quiet_append
    | error e =>
      rw [prompt_of_error hfa]
      constructor
      · rintro ⟨pre, hpre, heq⟩
        rcases List.append_eq_append_iff.1 heq with ⟨mid, rfl, hmid⟩ | ⟨mid, -, hmid⟩
        · obtain ⟨hq, hmidq⟩ := quiet_append.1 hpre
          exact ⟨hq, mid, hmidq, hmid⟩
        -- The second part makes a check, which is not among the last words.
        · refine absurd ?_ (hlast e)
          rw [hmid]
          exact List.mem_append_right _ (hf a e hfa)
      · rintro ⟨hq, pre, hpre, heq⟩
        exact ⟨x.log ++ pre, quiet_append.2 ⟨hq, hpre⟩, by rw [heq, List.append_assoc]⟩

theorem Regular.bind (hx : Regular x) (hf : ∀ a, Regular (f a)) : Regular (x >>= f) := by
  intro e he
  cases h : x.result with
  | error e' =>
    rw [bind_of_error h]
    exact hx e' h
  | ok a =>
    rw [bind_of_ok h] at he ⊢
    exact List.mem_append_right _ (hf a e he)

theorem checks_mem_bind (hx : Regular x) (hf : ∀ a, .checks ∈ (f a).log) :
    .checks ∈ (x >>= f).log := by
  cases h : x.result with
  | error e =>
    rw [bind_of_error h]
    exact hx e h
  | ok a =>
    rw [bind_of_ok h]
    exact List.mem_append_right _ (hf a)

theorem Regular.foldlM {f : β → γ → Reporting δ ε β} {xs : List γ} {s : β}
    (hf : ∀ s x, Regular (f s x)) : Regular (xs.foldlM f s) := by
  induction xs generalizing s with
  | nil => exact nofun
  | cons x xs ih =>
    rw [List.foldlM_cons]
    exact (hf s x).bind fun s' => ih

/-- A loop is prompt exactly if the turns that are reached are. -/
theorem prompt_foldlM_iff (hlast : ∀ e, .checks ∉ last e) {f : β → γ → Reporting δ ε β}
    {xs : List γ}
    {s : β} (hf : ∀ s x, Regular (f s x)) : Prompt last (xs.foldlM f s) ↔
      ∀ pre x suf s', xs = pre ++ x :: suf → (pre.foldlM f s).result = .ok s' →
        Prompt last (f s' x) := by
  induction xs generalizing s with
  | nil =>
    refine iff_of_true ?_ fun pre x suf s' h => ?_
    · exact List.forall_mem_nil _
    · simp at h
  | cons y ys ih =>
    rw [List.foldlM_cons, prompt_bind_iff hlast fun s => .foldlM hf]
    constructor
    · rintro ⟨hy, hys⟩ pre x suf s' heq hpre
      cases pre with
      | nil =>
        obtain ⟨rfl, rfl⟩ := List.cons.inj heq
        obtain rfl := Except.ok.inj hpre
        exact hy
      | cons z pre =>
        obtain ⟨rfl, rfl⟩ := List.cons.inj heq
        rw [List.foldlM_cons, result_bind] at hpre
        obtain ⟨s₁, h₁, hpre⟩ := bind_ok.1 hpre
        exact ih.1 (hys s₁ h₁) pre x suf s' rfl hpre
    · intro h
      refine ⟨h [] y ys s rfl rfl, fun s₁ h₁ => ih.2 fun pre x suf s' heq hpre => ?_⟩
      refine h (y :: pre) x suf s' (by rw [heq, List.cons_append]) ?_
      rw [List.foldlM_cons, result_bind, h₁]
      exact hpre

/-- The invariant rule for a prompt loop. -/
theorem foldlM_preserves_of_prompt (hlast : ∀ e, .checks ∉ last e) {f : β → γ → Reporting δ ε β}
    {xs : List γ} {s t : β} {I : β → Prop} (hf : ∀ s x, Regular (f s x))
    (hc : Prompt last (xs.foldlM f s)) (h : (xs.foldlM f s).result = .ok t) (hs : I s)
    (hstep : ∀ s x s', Prompt last (f s x) → (f s x).result = .ok s' → I s → I s') : I t := by
  induction xs generalizing s with
  | nil =>
    obtain rfl := Except.ok.inj h
    exact hs
  | cons x xs ih =>
    rw [List.foldlM_cons, prompt_bind_iff hlast fun s => .foldlM hf] at hc
    rw [List.foldlM_cons, result_bind] at h
    obtain ⟨s₁, h₁, h⟩ := bind_ok.1 h
    exact ih (hc.2 s₁ h₁) h (hstep s x s₁ hc.1 h₁ hs)

theorem late_append_right {l l' : List (Event δ)} (h : Late l') : Late (l ++ l') := by
  obtain ⟨pre, suf, rfl, hs⟩ := h
  exact ⟨l ++ pre, suf, by rw [List.append_assoc], hs⟩

theorem late_append_left {l l' : List (Event δ)} (h : Late l) : Late (l ++ l') := by
  obtain ⟨pre, suf, rfl, hs⟩ := h
  exact ⟨pre, suf ++ l', by rw [List.append_assoc, List.cons_append],
    List.mem_append_left _ hs⟩

theorem not_late_of_quiet {l : List (Event δ)} (h : Quiet l) : ¬Late l := by
  rintro ⟨pre, suf, rfl, -⟩
  cases h .found (by simp)

/-- No check comes after the first problem if none comes after the one that follows quiet events. -/
theorem not_late_of_last {pre suf : List (Event δ)} (hpre : Quiet pre) (hsuf : .checks ∉ suf) :
    ¬Late (pre ++ .found :: suf) := by
  rintro ⟨pre', suf', heq, hmem⟩
  rcases List.append_eq_append_iff.1 heq with ⟨mid, -, hmid⟩ | ⟨mid, rfl, hmid⟩
  · cases mid with
    | nil =>
      obtain ⟨-, rfl⟩ := List.cons.inj hmid
      exact hsuf hmem
    | cons e mid =>
      obtain ⟨-, rfl⟩ := List.cons.inj hmid
      exact hsuf (List.mem_append_right _ (List.mem_cons_of_mem _ hmem))
  · cases mid with
    | nil =>
      obtain ⟨-, rfl⟩ := List.cons.inj hmid
      exact hsuf hmem
    | cons e mid =>
      obtain ⟨rfl, -⟩ := List.cons.inj hmid
      cases hpre .found (by simp)

/-- A check after a problem. -/
theorem late_of_mem {l l' : List (Event δ)} (h : .found ∈ l) (h' : .checks ∈ l') :
    Late (l ++ l') := by
  obtain ⟨pre, suf, rfl⟩ := List.append_of_mem h
  exact ⟨pre, suf ++ l', by rw [List.append_assoc, List.cons_append],
    List.mem_append_right _ h'⟩

namespace Settled

theorem pure (a : α) : Settled last (Pure.pure a : Reporting δ ε α) :=
  ⟨nofun, .inl (List.forall_mem_nil _)⟩

theorem bind (hx : Settled last x) (hf : ∀ a, Settled last (f a)) : Settled last (x >>= f) := by
  refine ⟨hx.regular.bind fun a => (hf a).regular, ?_⟩
  cases h : x.result with
  | error e =>
    rw [bind_of_error h]
    refine hx.cases.imp (fun hc => ?_) fun hs => ?_
    · exact (prompt_of_error h).1 hc
    · rcases hs with ⟨⟨a, ha⟩, -⟩ | hl
      · rw [h] at ha
        cases ha
      · exact .inr hl
  | ok a =>
    have hlate : Late x.log → Spoilt (x >>= f) := fun hl => by
      rw [bind_of_ok h]
      exact .inr (late_append_left hl)
    rcases hx.cases with hc | ⟨-, hfound⟩ | hl
    · rw [prompt_of_ok h] at hc
      rw [bind_of_ok h]
      refine (hf a).cases.imp (fun hfc => ?_) fun hfs => ?_
      · cases hfa : (f a).result with
        | ok b => exact quiet_append.2 ⟨hc, (prompt_of_ok hfa).1 hfc⟩
        | error e =>
          obtain ⟨pre, hpre, heq⟩ := (prompt_of_error hfa).1 hfc
          exact ⟨x.log ++ pre, quiet_append.2 ⟨hc, hpre⟩, by rw [heq, List.append_assoc]⟩
      · rcases hfs with ⟨hok, hfound⟩ | hl
        · exact .inl ⟨hok, List.mem_append_right _ hfound⟩
        · exact .inr (late_append_right hl)
    · right
      rw [bind_of_ok h]
      cases hfa : (f a).result with
      | ok b => exact .inl ⟨⟨b, rfl⟩, List.mem_append_left _ hfound⟩
      | error e => exact .inr (late_of_mem hfound ((hf a).regular e hfa))
    · exact .inr (hlate hl)

theorem foldlM {f : β → γ → Reporting δ ε β} {xs : List γ} {s : β}
    (hf : ∀ s x, Settled last (f s x)) : Settled last (xs.foldlM f s) := by
  induction xs generalizing s with
  | nil => exact pure s
  | cons x xs ih =>
    rw [List.foldlM_cons]
    exact (hf s x).bind fun s' => ih

theorem ite {c : Prop} [Decidable c] {y : Reporting δ ε α} (hx : Settled last x)
    (hy : Settled last y) : Settled last (if c then x else y) := by
  split
  · exact hx
  · exact hy

end Settled

theorem prompt_pure : Prompt last (pure a : Reporting δ ε α) := List.forall_mem_nil _

theorem prompt_attempt (y : Except ε α) : Prompt last (attempt last y) := by
  have hq : Quiet [(.checks : Event δ)] := List.forall_mem_singleton.2 rfl
  cases y with
  | ok a => exact hq
  | error e => exact ⟨[.checks], hq, rfl⟩

theorem settled_attempt (y : Except ε α) : Settled last (attempt last y) :=
  ⟨fun _ _ => List.mem_cons_self, .inl (prompt_attempt y)⟩

theorem prompt_flag_iff {c : Prop} [Decidable c] {ds : List δ} :
    Prompt last (flag c ds : Reporting δ ε Unit) ↔ ¬c := by
  constructor
  · intro h hc
    have hfound := h .found (by simp [flag, hc])
    cases hfound
  · intro hc
    show Quiet (_ :: if c then _ else _)
    rw [if_neg hc]
    exact List.forall_mem_singleton.2 rfl

theorem settled_flag {c : Prop} [Decidable c] {ds : List δ} :
    Settled last (flag c ds : Reporting δ ε Unit) := by
  refine ⟨nofun, ?_⟩
  by_cases hc : c
  · exact .inr (.inl ⟨⟨(), rfl⟩, by simp [flag, hc]⟩)
  · exact .inl (prompt_flag_iff.2 hc)

end Reporting

end OsProjects
