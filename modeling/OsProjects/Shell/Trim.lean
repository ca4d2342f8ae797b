import OsProjects.Foundation.Lines
import OsProjects.Shell.Model

/-!
# trim in its buffer

`trim` walks from the end of the string back to the last byte that is not a blank, and has nothing
else to stop it: without such a byte it reads in front of the buffer.

A buffer is the list of its bytes, and a pointer into it an index.  A read or a write outside of it
has no result.

* `trimBuffer`: the function on a buffer;
* `trims_iff`: the strings that it trims.
-/

namespace OsProjects.Shell

/-- `while (p(*i)) i++;` -/
def scan (p : UInt8 → Bool) (buffer : List UInt8) (i : ℕ) : Option ℕ :=
  if h : i < buffer.length then
    if p buffer[i] then scan p buffer (i + 1) else some i
  else none
termination_by buffer.length - i

/-- `while (isspace(*--right)) {}` -/
def back (buffer : List UInt8) : ℕ → Option ℕ
  | 0 => none
  | right + 1 => do
    let c ← buffer[right]?
    if isSpace c then back buffer right else some right

/-- `buffer[i] = c;` -/
def writeByte (buffer : List UInt8) (i : ℕ) (c : UInt8) : Option (List UInt8) :=
  if i < buffer.length then some (buffer.set i c) else none

/-- `trim` of the string at the start of a buffer: the pointer returned, and the buffer. -/
def trimBuffer (buffer : List UInt8) : Option (ℕ × List UInt8) := do
  let user_input ← scan isSpace buffer 0
  let right ← scan (· ≠ 0) buffer user_input
  let right ← back buffer right
  let buffer ← writeByte buffer (right + 1) 0
  some (user_input, buffer)

/-- A string stored from the start of its buffer. -/
structure Stored where
  str : Str
  /-- What the buffer holds behind the NUL. -/
  rest : List UInt8
  noNul : 0 ∉ str

def Stored.buffer (a : Stored) : List UInt8 := a.str ++ 0 :: a.rest

/-- `trim` stays in the buffer and returns the string without the blanks at its ends. -/
def Trims (a : Stored) : Prop :=
  ∃ i buffer, trimBuffer a.buffer = some (i, buffer) ∧ cstr (buffer.drop i) = trim a.str

/-! ### The loops -/

section Loops

variable {p : UInt8 → Bool} {pre t rest : List UInt8} {c : UInt8}

/-- The forward loops stop at the first byte that fails their test. -/
theorem scan_eq (pre : List UInt8) (ht : ∀ b ∈ t, p b = true) (hc : p c = false) :
    scan p (pre ++ t ++ c :: rest) pre.length = some (pre ++ t).length := by
  induction t generalizing pre with
  | nil =>
    rw [List.append_nil, scan, dif_pos (by simp)]
    simp [hc]
  | cons b t ih =>
    rw [List.forall_mem_cons] at ht
    have hassoc : pre ++ b :: t = (pre ++ [b]) ++ t := by simp
    have hnext := ih (pre ++ [b]) ht.2
    rw [← hassoc, List.length_append, List.length_singleton] at hnext
    rw [scan, dif_pos (by simp), hnext]
    simp [ht.1]

/-- The backward loop stops at the last byte that is not a blank. -/
theorem back_eq (hc : isSpace c = false) (ht : ∀ b ∈ t, isSpace b = true) :
    back (pre ++ c :: t ++ rest) (pre ++ c :: t).length = some pre.length := by
  induction t using List.reverseRecOn generalizing rest with
  | nil =>
    rw [List.length_append, List.length_singleton, back]
    simp [hc]
  | append_singleton t b ih =>
    have hlen : (pre ++ c :: (t ++ [b])).length = (pre ++ c :: t).length + 1 := by
      simp only [List.length_append, List.length_cons, List.length_nil]
      omega
    have hassoc : pre ++ c :: (t ++ [b]) ++ rest = pre ++ c :: t ++ b :: rest := by simp
    have hb : isSpace b = true := ht b (by simp)
    rw [hlen, hassoc, back, List.getElem?_append_right le_rfl]
    simp only [Nat.sub_self, List.getElem?_cons_zero, Option.bind_eq_bind, Option.bind_some, hb,
      if_true]
    exact ih fun b hb => ht b (List.mem_append_left _ hb)

/-- Blanks do not stop the backward loop. -/
theorem back_blanks (ht : ∀ b ∈ t, isSpace b = true) : back (t ++ rest) t.length = none := by
  induction t using List.reverseRecOn generalizing rest with
  | nil => rfl
  | append_singleton t b ih =>
    have hb : isSpace b = true := ht b (by simp)
    rw [List.append_assoc, List.length_append, List.length_singleton, back,
      List.getElem?_append_right le_rfl]
    simp only [Nat.sub_self, List.singleton_append, List.getElem?_cons_zero, Option.bind_eq_bind,
      Option.bind_some, hb, if_true]
    exact ih fun b hb => ht b (List.mem_append_left _ hb)

end Loops

/-! ### trim -/

/-- A string with a byte that is not a blank: what stands around its first and its last one. -/
theorem exists_ends {s : Str} (h : ∃ b ∈ s, isSpace b = false) : ∃ lead w c trail,
    s = lead ++ w ++ [c] ++ trail ∧ trim s = w ++ [c] ∧ isSpace c = false ∧
      (∀ b ∈ lead, isSpace b = true) ∧ (∀ b ∈ trail, isSpace b = true) ∧
      ∃ d t, w ++ [c] = d :: t ∧ isSpace d = false := by
  obtain ⟨lead, trail, hs, hl, ht⟩ := exists_strip isSpace s
  have hne : strip isSpace s ≠ [] := by
    intro hnil
    obtain ⟨b, hb, hspace⟩ := h
    rw [hs, hnil, List.append_nil, List.mem_append] at hb
    rcases hb with hb | hb
    · rw [hl b hb] at hspace
      cases hspace
    · rw [ht b hb] at hspace
      cases hspace
  obtain ⟨w, c, hw⟩ := (List.eq_nil_or_concat' (strip isSpace s)).resolve_left hne
  obtain ⟨d, t, hd⟩ := List.exists_cons_of_ne_nil hne
  refine ⟨lead, w, c, trail, ?_, hw, ?_, hl, ht, d, t, hw ▸ hd, head_strip hd⟩
  · rw [List.append_assoc lead, ← hw, ← hs]
  · have hlast := List.rdropWhile_last_not isSpace (s.dropWhile isSpace) hne
    have hget : (strip isSpace s).getLast hne = c := by simp [hw]
    rw [← hget]
    exact Bool.eq_false_iff.2 hlast

/-- The run on a string whose first and last bytes other than blanks are known. -/
theorem trimBuffer_eq {buffer lead w t trail rest : List UInt8} {c d : UInt8}
    (hB : buffer = lead ++ w ++ [c] ++ trail ++ 0 :: rest) (h0 : 0 ∉ w ++ [c] ++ trail)
    (hl : ∀ b ∈ lead, isSpace b = true) (ht : ∀ b ∈ trail, isSpace b = true)
    (hc : isSpace c = false) (hd : w ++ [c] = d :: t) (hdspace : isSpace d = false) :
    ∃ u, trimBuffer buffer = some (lead.length, lead ++ (w ++ [c] ++ 0 :: u)) := by
  obtain ⟨e, u, hu⟩ : ∃ e u, trail ++ 0 :: rest = e :: u :=
    List.exists_cons_of_ne_nil (List.append_ne_nil_of_right_ne_nil _ (List.cons_ne_nil _ _))
  have hskip : scan isSpace buffer 0 = some lead.length := by
    have hform : buffer = [] ++ lead ++ d :: (t ++ (trail ++ 0 :: rest)) := by
      rw [← List.cons_append, ← hd, hB]
      simp only [List.append_assoc, List.nil_append]
    rw [hform]
    exact scan_eq [] hl hdspace
  have hend : scan (· ≠ 0) buffer lead.length = some (lead ++ w ++ c :: trail).length := by
    have hform : buffer = lead ++ (w ++ [c] ++ trail) ++ 0 :: rest := by
      rw [hB]
      simp only [List.append_assoc]
    have hbytes : ∀ b ∈ w ++ [c] ++ trail, decide (b ≠ 0) = true := fun b hb => by
      simpa using ne_of_mem_of_not_mem hb h0
    rw [hform, scan_eq _ hbytes (by decide)]
    simp only [List.append_assoc, List.singleton_append]
  have hback : back buffer (lead ++ w ++ c :: trail).length = some (lead ++ w).length := by
    have hform : buffer = lead ++ w ++ c :: trail ++ 0 :: rest := by
      rw [hB, List.append_cons (lead ++ w) c trail]
    rw [hform]
    exact back_eq hc ht
  have hwrite : writeByte buffer ((lead ++ w).length + 1) 0 =
      some (lead ++ (w ++ [c] ++ 0 :: u)) := by
    have hform : buffer = lead ++ (w ++ [c]) ++ e :: u := by
      rw [← hu, hB]
      simp only [List.append_assoc]
    have hlen : (lead ++ w).length + 1 = (lead ++ (w ++ [c])).length := by
      simp only [List.length_append, List.length_singleton]
      omega
    rw [hform, writeByte, hlen, if_pos (by simp), List.set_append_right _ _ le_rfl, Nat.sub_self,
      List.set_cons_zero, List.append_assoc]
  refine ⟨u, ?_⟩
  rw [trimBuffer, hskip]
  simp only [Option.bind_eq_bind, Option.bind_some, hend, hback, hwrite]

theorem trims_of_exists (a : Stored) (h : ∃ b ∈ a.str, isSpace b = false) : Trims a := by
  obtain ⟨lead, w, c, trail, hs, htrim, hc, hl, ht, d, t, hd, hdspace⟩ := exists_ends h
  have h0 : 0 ∉ w ++ [c] ++ trail := by
    intro hmem
    apply a.noNul
    rw [hs, List.append_assoc lead, List.append_assoc lead]
    exact List.mem_append_right lead hmem
  have hB : a.buffer = lead ++ w ++ [c] ++ trail ++ 0 :: a.rest := by rw [← hs, Stored.buffer]
  obtain ⟨u, hrun⟩ := trimBuffer_eq hB h0 hl ht hc hd hdspace
  refine ⟨_, _, hrun, ?_⟩
  have hbytes : ∀ b ∈ w ++ [c], decide (b ≠ 0) = true := fun b hb => by
    simpa using ne_of_mem_of_not_mem (List.mem_append_left trail hb) h0
  rw [List.drop_left, htrim, cstr, List.takeWhile_append_of_pos hbytes]
  simp

theorem not_trims_of_forall (a : Stored) (h : ∀ b ∈ a.str, isSpace b = true) : ¬ Trims a := by
  rintro ⟨i, buffer, hrun, -⟩
  have h0 : ∀ b ∈ a.str, decide (b ≠ 0) = true := by
    intro b hb
    simpa using ne_of_mem_of_not_mem hb a.noNul
  have hskip : scan isSpace a.buffer 0 = some a.str.length :=
    scan_eq [] h (by decide)
  have hend : scan (· ≠ 0) a.buffer a.str.length = some a.str.length := by
    have hscan : scan (· ≠ 0) (a.str ++ [] ++ 0 :: a.rest) a.str.length = _ :=
      scan_eq a.str nofun (by decide)
    rwa [List.append_nil] at hscan
  rw [trimBuffer, hskip] at hrun
  simp only [Option.bind_eq_bind, Option.bind_some, hend] at hrun
  rw [Stored.buffer, back_blanks h] at hrun
  cases hrun

/-- **The strings that trim trims.** -/
theorem trims_iff (a : Stored) : Trims a ↔ ∃ b ∈ a.str, isSpace b = false := by
  refine ⟨fun h => ?_, trims_of_exists a⟩
  by_contra hno
  refine not_trims_of_forall a (fun b hb => ?_) h
  by_contra hb'
  exact hno ⟨b, hb, by simpa using hb'⟩

/-- An empty line. -/
def emptyLine : Stored where
  str := []
  rest := []
  noNul := nofun

theorem not_trims : ¬ Trims emptyLine := not_trims_of_forall emptyLine nofun

end OsProjects.Shell
