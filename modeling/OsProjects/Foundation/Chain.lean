import Mathlib.Tactic
import Mathlib.Data.List.Nodup

/-!
# Null-terminated chains

A singly linked list in memory is a function `next`, giving the successor stored in each cell, and
a pointer to the first cell; the distinguished pointer `null` ends the list.  `Chain null next p l`
says that following `next` from `p` visits exactly the cells of `l`, in order, and then `null`.

* a chain is determined by its first pointer and repeats no cell (`Chain.unique`, `Chain.nodup`),
  so a list that satisfies `Chain` is acyclic;
* a write outside the chain leaves it alone (`Chain.congr`, `Chain.update_of_notMem`);
* the list surgery of C programs: `Chain.push` puts a cell in front, `Chain.unlink` makes a cell
  point past its successor, `Chain.split` cuts at a cell.
-/

namespace OsProjects

variable {α : Type*} {null : α} {next next' : α → α}

/-- Following `next` from the pointer visits exactly the listed cells, then `null`. -/
def Chain (null : α) (next : α → α) : α → List α → Prop
  | p, [] => p = null
  | p, a :: l => p = a ∧ a ≠ null ∧ Chain null next (next a) l

namespace Chain

@[simp] theorem nil_iff {p : α} : Chain null next p [] ↔ p = null := Iff.rfl

@[simp] theorem cons_iff {p a : α} {l : List α} :
    Chain null next p (a :: l) ↔ p = a ∧ a ≠ null ∧ Chain null next (next a) l := Iff.rfl

theorem ne_null {p : α} {l : List α} (h : Chain null next p l) : ∀ a ∈ l, a ≠ null := by
  induction l generalizing p with
  | nil => simp
  | cons b l ih =>
    obtain ⟨rfl, hb, hl⟩ := h
    exact List.forall_mem_cons.2 ⟨hb, ih hl⟩

theorem eq_nil_iff {p : α} {l : List α} (h : Chain null next p l) : l = [] ↔ p = null := by
  cases l with
  | nil => simpa using h
  | cons a l =>
    obtain ⟨rfl, ha, -⟩ := h
    simp [ha]

/-- A chain from a non-null pointer starts with that pointer. -/
theorem exists_cons {p : α} {l : List α} (h : Chain null next p l) (hp : p ≠ null) :
    ∃ l', l = p :: l' ∧ Chain null next (next p) l' := by
  cases l with
  | nil => exact absurd h hp
  | cons a l =>
    obtain ⟨rfl, -, hl⟩ := h
    exact ⟨l, rfl, hl⟩

theorem unique {p : α} {l l' : List α} (h : Chain null next p l) (h' : Chain null next p l') :
    l = l' := by
  induction l generalizing p l' with
  | nil => exact (h'.eq_nil_iff.2 h).symm
  | cons a l ih =>
    obtain ⟨rfl, ha, hl⟩ := h
    obtain ⟨m, rfl, hm⟩ := h'.exists_cons ha
    rw [ih hl hm]

/-- Cutting a chain at one of its cells leaves a chain from that cell. -/
theorem split {p a : α} {l₁ l₂ : List α} (h : Chain null next p (l₁ ++ a :: l₂)) :
    Chain null next a (a :: l₂) := by
  induction l₁ generalizing p with
  | nil =>
    obtain ⟨rfl, hl⟩ := h
    exact ⟨rfl, hl⟩
  | cons b l₁ ih => exact ih h.2.2

/-- A chain is acyclic: it ends, so it cannot come back to a cell. -/
theorem nodup {p : α} {l : List α} (h : Chain null next p l) : l.Nodup := by
  induction l generalizing p with
  | nil => exact List.nodup_nil
  | cons a l ih =>
    refine List.nodup_cons.2 ⟨fun ha => ?_, ih h.2.2⟩
    obtain ⟨l₁, l₂, rfl⟩ := List.append_of_mem ha
    -- two chains from `a`, one strictly longer than the other
    have hlong : Chain null next a (a :: (l₁ ++ a :: l₂)) := by simpa [h.1] using h
    have := congrArg List.length (hlong.unique (split h.2.2))
    simp at this
    omega

theorem congr {p : α} {l : List α} (h : Chain null next p l) (heq : ∀ a ∈ l, next' a = next a) :
    Chain null next' p l := by
  induction l generalizing p with
  | nil => exact h
  | cons a l ih =>
    refine ⟨h.1, h.2.1, ?_⟩
    rw [heq a (by simp)]
    exact ih h.2.2 fun b hb => heq b (by simp [hb])

section Update

variable [DecidableEq α]

theorem update_of_notMem {p a b : α} {l : List α} (h : Chain null next p l) (ha : a ∉ l) :
    Chain null (Function.update next a b) p l :=
  h.congr fun c hc => Function.update_of_ne (by rintro rfl; exact ha hc) _ _

/-- `a->next = p; p = a;` -/
theorem push {p a : α} {l : List α} (h : Chain null next p l) (ha : a ∉ l) (hn : a ≠ null) :
    Chain null (Function.update next a p) a (a :: l) := by
  refine ⟨rfl, hn, ?_⟩
  rw [Function.update_self]
  exact h.update_of_notMem ha

/-- `b->next = r->next;` for `r` the successor of `b`. -/
theorem unlink {p b r : α} {l₁ l₂ : List α} (h : Chain null next p (l₁ ++ b :: r :: l₂)) :
    Chain null (Function.update next b (next r)) p (l₁ ++ b :: l₂) := by
  induction l₁ generalizing p with
  | nil =>
    have hnd := h.nodup
    obtain ⟨rfl, hb, -, -, hl⟩ := h
    refine ⟨rfl, hb, ?_⟩
    rw [Function.update_self]
    refine hl.update_of_notMem fun hmem => ?_
    simp [hmem] at hnd
  | cons c l₁ ih =>
    have hnd := h.nodup
    obtain ⟨rfl, hc, hl⟩ := h
    refine ⟨rfl, hc, ?_⟩
    have hbp : b ≠ p := by
      rintro rfl
      simp at hnd
    rw [Function.update_of_ne hbp.symm]
    exact ih hl

end Update

end Chain

end OsProjects
