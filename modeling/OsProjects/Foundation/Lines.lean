import Mathlib.Data.List.TakeWhile
import Mathlib.Tactic

/-!
# Lines of a file

* `getline`: the next line of a stream, with its newline if it has one;
* `lines`: all lines of a stream;
* `getline_lines`: a call of `getline` returns the first line and leaves the others;
* `cstr`: the string in a buffer.
-/

namespace OsProjects

/-- `getline`: the line with its newline, and the rest of the file. -/
def getline : List UInt8 → Option (List UInt8 × List UInt8)
  | [] => none
  | fp =>
    match fp.dropWhile (· ≠ 0x0A) with
    | [] => some (fp, [])
    | nl :: rest => some (fp.takeWhile (· ≠ 0x0A) ++ [nl], rest)

/-- The string in a buffer that holds some bytes and a terminating NUL. -/
def cstr (bytes : List UInt8) : List UInt8 := bytes.takeWhile (· ≠ 0)

/-- The lines of a file, each with its newline. -/
def lines : List UInt8 → List (List UInt8)
  | [] => []
  | b :: bs =>
    if b = 0x0A then [b] :: lines bs
    else match lines bs with
      | [] => [[b]]
      | l :: ls => (b :: l) :: ls

theorem length_getline {fp line rest : List UInt8} (h : getline fp = some (line, rest)) :
    rest.length < fp.length := by
  cases fp with
  | nil => cases h
  | cons b bs =>
    have hle := (List.dropWhile_sublist (l := b :: bs) (· ≠ 0x0A)).length_le
    simp only [getline] at h
    generalize (b :: bs).dropWhile (· ≠ 0x0A) = d at h hle
    cases d with
    | nil =>
      cases h
      simp
    | cons nl d =>
      cases h
      exact hle

/-- A byte in front of a line that is not a newline belongs to the line. -/
theorem getline_cons {b : UInt8} {fp line rest : List UInt8} (hb : b ≠ 0x0A)
    (h : getline fp = some (line, rest)) : getline (b :: fp) = some (b :: line, rest) := by
  obtain ⟨c, cs, rfl⟩ : ∃ c cs, fp = c :: cs := by
    cases fp with
    | nil => simp [getline] at h
    | cons c cs => exact ⟨c, cs, rfl⟩
  have hdrop := List.dropWhile_cons_of_pos (p := (· ≠ 0x0A)) (l := c :: cs) (by simpa using hb)
  have htake := List.takeWhile_cons_of_pos (p := (· ≠ 0x0A)) (l := c :: cs) (by simpa using hb)
  simp only [getline] at h ⊢
  rw [hdrop, htake]
  generalize (c :: cs).dropWhile (· ≠ 0x0A) = d at h ⊢
  cases d <;> cases h <;> rfl

theorem getline_lines {fp : List UInt8} (hne : fp ≠ []) :
    ∃ line rest, getline fp = some (line, rest) ∧ lines fp = line :: lines rest ∧
      fp = line ++ rest := by
  induction fp with
  | nil => exact absurd rfl hne
  | cons b bs ih =>
    by_cases hb : b = 0x0A
    · exact ⟨[b], bs, by simp [getline, hb], by simp [lines, hb], rfl⟩
    · rcases eq_or_ne bs [] with rfl | hbs
      · exact ⟨[b], [], by simp [getline, hb], by simp [lines, hb], rfl⟩
      · obtain ⟨line, rest, hget, hlines, hfp⟩ := ih hbs
        refine ⟨b :: line, rest, getline_cons hb hget, ?_, by simp [hfp]⟩
        rw [lines, if_neg hb, hlines]

theorem getline_eq_none {fp : List UInt8} : getline fp = none ↔ fp = [] := by
  refine ⟨fun h => ?_, fun h => by rw [h]; rfl⟩
  by_contra hne
  obtain ⟨line, rest, hget, -⟩ := getline_lines hne
  rw [hget] at h
  cases h

theorem lines_of_getline {fp line rest : List UInt8} (h : getline fp = some (line, rest)) :
    lines fp = line :: lines rest := by
  have hne : fp ≠ [] := fun hnil => by
    rw [getline_eq_none.2 hnil] at h
    cases h
  obtain ⟨line', rest', hget, hlines, -⟩ := getline_lines hne
  obtain ⟨rfl, rfl⟩ := Prod.mk.inj (Option.some.inj (hget.symm.trans h))
  exact hlines

/-- Without a newline there is one line. -/
theorem lines_of_not_mem {f : List UInt8} (hne : f ≠ []) (h : 0x0A ∉ f) : lines f = [f] := by
  induction f with
  | nil => contradiction
  | cons b bs ih =>
    rw [List.mem_cons, not_or] at h
    rw [lines, if_neg (Ne.symm h.1)]
    by_cases hbs : bs = []
    · rw [hbs]
      rfl
    · rw [ih hbs h.2]

theorem cstr_of_not_mem {bytes : List UInt8} (h : 0 ∉ bytes) : cstr bytes = bytes := by
  rw [cstr, List.takeWhile_eq_self_iff]
  intro b hb
  simpa using ne_of_mem_of_not_mem hb h

end OsProjects
