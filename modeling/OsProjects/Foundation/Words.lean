import Mathlib.Tactic
import Mathlib.Data.List.TakeWhile
import Mathlib.Data.List.DropRight

/-!
# Words and blanks

A list is cut into words at the elements a predicate calls blank, and stripped of the blanks at its
ends.

* `flatten_words`: the words hold everything but the blanks;
* `words_append_blanks`, `words_blanks_append`: blanks at the ends do not matter to the words;
* `exists_strip`, `strip_strip`, `strip_blanks_append`: what stripping removes, and that it is done
  once and for all;
* `StartsWith`: a list whose first word is known.
-/

namespace OsProjects

variable {α : Type*} {p q : α → Bool} {s t : List α}

/-- The nonempty pieces between blanks. -/
def words (p : α → Bool) (s : List α) : List (List α) := (s.splitOnP p).filter (!·.isEmpty)

/-- A list without the blanks at its ends. -/
def strip (p : α → Bool) (s : List α) : List α := (s.dropWhile p).rdropWhile p

/-! ### Words -/

section Words

theorem words_cons {b : α} (hb : p b = true) (s : List α) : words p (b :: s) = words p s := by
  rw [words, ← List.nil_append (b :: s), List.splitOnP_append_cons [] s hb, words,
    List.filter_append]
  rfl

theorem words_concat {b : α} (hb : p b = true) (s : List α) : words p (s ++ [b]) = words p s := by
  rw [words, List.splitOnP_append_cons s [] hb, words, List.filter_append]
  simp

theorem words_blanks_append {lead : List α} (h : ∀ b ∈ lead, p b = true) (s : List α) :
    words p (lead ++ s) = words p s := by
  induction lead with
  | nil => rfl
  | cons b lead ih =>
    rw [List.forall_mem_cons] at h
    rw [List.cons_append, words_cons h.1, ih h.2]

theorem words_append_blanks {trail : List α} (h : ∀ b ∈ trail, p b = true) (s : List α) :
    words p (s ++ trail) = words p s := by
  induction trail using List.reverseRecOn with
  | nil => rw [List.append_nil]
  | append_singleton trail b ih =>
    simp only [List.mem_append, List.mem_singleton, or_imp, forall_and, forall_eq] at h
    rw [← List.append_assoc, words_concat h.2, ih h.1]

theorem flatten_splitOnP (p : α → Bool) (s : List α) :
    (s.splitOnP p).flatten = s.filter (!p ·) := by
  induction s with
  | nil => rfl
  | cons b s ih =>
    rw [List.splitOnP_cons_eq_if_modifyHead]
    by_cases hb : p b = true
    · simp [hb, ih]
    · obtain ⟨w, ws, hw⟩ := List.exists_cons_of_ne_nil (List.splitOnP_ne_nil p s)
      rw [hw] at ih
      simp only [Bool.not_eq_true] at hb
      simp [hb, hw, ← ih]

/-- The words hold everything but the blanks. -/
theorem flatten_words (p : α → Bool) (s : List α) : (words p s).flatten = s.filter (!p ·) := by
  rw [words, List.flatten_filter_not_isEmpty, flatten_splitOnP]

theorem exists_splitOnP (p : α → Bool) (s : List α) :
    ∃ ws, s.splitOnP p = s.takeWhile (!p ·) :: ws := by
  induction s with
  | nil => exact ⟨[], rfl⟩
  | cons c s ih =>
    obtain ⟨ws, hws⟩ := ih
    rw [List.splitOnP_cons_eq_if_modifyHead]
    cases hc : p c
    · exact ⟨ws, by simp [hws, hc]⟩
    · exact ⟨s.splitOnP p, by simp [hc]⟩

/-- The first piece, and the words of the others. -/
theorem words_of_head_not {b : α} (hb : p b = false) (s : List α) :
    words p (b :: s) = (b :: s).takeWhile (!p ·) ::
      ((((b :: s).splitOnP p).tail).filter (!·.isEmpty)) := by
  obtain ⟨ws, hws⟩ := exists_splitOnP p (b :: s)
  rw [words, hws]
  simp [hb]

theorem not_mem_of_mem_splitOnP {w : List α} (hw : w ∈ s.splitOnP p) : ∀ b ∈ w, p b ≠ true := by
  intro b hb
  have hmem : b ∈ (s.splitOnP p).flatten := List.mem_flatten_of_mem hw hb
  rw [flatten_splitOnP, List.mem_filter] at hmem
  simpa using hmem.2

/-- What stands in front of the first separator belongs to the first piece. -/
theorem splitOnP_append {lead : List α} (h : ∀ b ∈ lead, p b = false) (s : List α) :
    (lead ++ s).splitOnP p = (s.splitOnP p).modifyHead (lead ++ ·) := by
  induction lead with
  | nil => cases hs : s.splitOnP p <;> simp [hs]
  | cons b lead ih =>
    rw [List.forall_mem_cons] at h
    rw [List.cons_append, List.splitOnP_cons_eq_if_modifyHead, ih h.2, if_neg (by simp [h.1]),
      List.modifyHead_modifyHead]
    rfl

end Words

/-! ### Blanks at the ends -/

section Strip

theorem exists_strip (p : α → Bool) (s : List α) :
    ∃ lead trail, s = lead ++ strip p s ++ trail ∧ (∀ b ∈ lead, p b = true) ∧
      ∀ b ∈ trail, p b = true := by
  refine ⟨s.takeWhile p, (s.dropWhile p).rtakeWhile p, ?_, ?_, ?_⟩
  · rw [List.append_assoc, strip, List.rdropWhile_append_rtakeWhile,
      List.takeWhile_append_dropWhile]
  · exact fun b hb => List.mem_takeWhile_imp hb
  · exact fun b hb => List.mem_rtakeWhile_imp hb

theorem mem_of_mem_strip {b : α} (h : b ∈ strip p s) : b ∈ s := by
  obtain ⟨lead, trail, hs, -, -⟩ := exists_strip p s
  rw [hs]
  simp [h]

theorem strip_blanks_append {lead : List α} (h : ∀ b ∈ lead, p b = true) (s : List α) :
    strip p (lead ++ s) = strip p s := by
  rw [strip, List.dropWhile_append_of_pos h, strip]

theorem head_strip {b : α} (h : strip p s = b :: t) : p b = false := by
  have hpre : strip p s <+: s.dropWhile p := List.rdropWhile_prefix p _
  rw [h] at hpre
  obtain ⟨u, hu⟩ := hpre
  by_contra hb
  have hne : s.dropWhile p ≠ [] := by simp [← hu]
  have hhead := List.head_dropWhile_not p hne
  simp [← hu] at hhead
  simp [hhead] at hb

theorem strip_strip (p : α → Bool) (s : List α) : strip p (strip p s) = strip p s := by
  have hdrop : (strip p s).dropWhile p = strip p s := by
    cases h : strip p s with
    | nil => rfl
    | cons b t => rw [List.dropWhile_cons_of_neg (by simp [head_strip h])]
  rw [strip, hdrop, strip, List.rdropWhile_idempotent]

/-- Cutting off the blanks at the end leaves those in front. -/
theorem rdropWhile_eq (p : α → Bool) (s : List α) :
    ∃ lead, s.rdropWhile p = lead ++ strip p s ∧ ∀ b ∈ lead, p b = true := by
  have hsplit := List.takeWhile_append_dropWhile (p := p) (l := s)
  have hrev : s.reverse = (s.dropWhile p).reverse ++ (s.takeWhile p).reverse := by
    rw [← List.reverse_append, hsplit]
  by_cases hnil : strip p s = []
  · refine ⟨[], ?_, by simp⟩
    obtain ⟨lead, trail, hs, hl, ht⟩ := exists_strip p s
    rw [hnil, List.append_nil, List.rdropWhile_eq_nil_iff, hs, hnil]
    intro b hb
    simp only [List.append_nil, List.mem_append] at hb
    exact hb.elim (hl b) (ht b)
  · refine ⟨s.takeWhile p, ?_, fun b hb => List.mem_takeWhile_imp hb⟩
    have hne : ((s.dropWhile p).reverse.dropWhile p).isEmpty = false := by
      simpa [strip, List.rdropWhile] using hnil
    rw [List.rdropWhile, hrev, List.dropWhile_append, hne]
    simp [strip, List.rdropWhile]

/-- If only blanks of a narrower kind were removed, the words of that kind stay the same. -/
theorem words_eq_of_strip {lead trail : List α} (hs : s = lead ++ t ++ trail)
    (hl : ∀ b ∈ lead, p b = true) (ht : ∀ b ∈ trail, p b = true) : words p s = words p t := by
  rw [hs, words_append_blanks ht, words_blanks_append hl]

/-- And only then. -/
theorem blanks_of_words_eq {lead trail : List α} (hs : s = lead ++ t ++ trail)
    (h : words p s = words p t) : (∀ b ∈ lead, p b = true) ∧ ∀ b ∈ trail, p b = true := by
  have hflat := congrArg List.flatten h
  rw [flatten_words, flatten_words, hs, List.filter_append, List.filter_append] at hflat
  have hlen := congrArg List.length hflat
  simp only [List.length_append] at hlen
  have hlead : lead.filter (!p ·) = [] := List.length_eq_zero_iff.1 (by omega)
  have htrail : trail.filter (!p ·) = [] := List.length_eq_zero_iff.1 (by omega)
  simp only [List.filter_eq_nil_iff, Bool.not_eq_true', Bool.not_eq_false] at hlead htrail
  exact ⟨hlead, htrail⟩

end Strip

end OsProjects
