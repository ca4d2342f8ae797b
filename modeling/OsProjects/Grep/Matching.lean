import OsProjects.Grep.Model

/-!
# The lines that are printed

The loops of the search compare the term with every position of a line until it is found.  They find
it wherever it is, but the `int`s that count the positions do not reach every byte of a line of
2 GiB and more.

* `compareAt_eq`, `compareAt_error`: the loop over `j`;
* `positions_found`, `positions_missing`, `positions_error`: the loop over `i`;
* `Countable`: the lines that are searched without an overflow;
* `prints_iff`: which searches print exactly the matching lines.
-/

namespace OsProjects.Grep

variable {t l : Str} {i j k index p : ℕ} {find : Bool}

/-! ### One position -/

theorem drop_prefix_drop_iff (h : index < t.length) :
    t.drop index <+: l.drop j ↔ t[index]? = l[j]? ∧ t.drop (index + 1) <+: l.drop (j + 1) := by
  rw [List.drop_eq_getElem_cons h, List.getElem?_eq_getElem h]
  by_cases hj : j < l.length
  · rw [List.drop_eq_getElem_cons hj, List.getElem?_eq_getElem hj, List.cons_prefix_cons,
      Option.some.injEq]
  · rw [List.drop_eq_nil_of_le (not_lt.1 hj), List.getElem?_eq_none (not_lt.1 hj)]
    simp only [List.prefix_nil, reduceCtorEq, false_and]

/-- The loop over `j` compares the rest of the term with what stands in the line. -/
theorem compareAt_eq (hi : i + t.length ≤ INT_MAX) (hindex : index ≤ t.length) :
    compareAt t l i (i + index) index find =
      .ok (find && decide (t.drop index <+: l.drop (i + index))) := by
  induction hk : t.length - index generalizing index find with
  | zero =>
    have heq : index = t.length := by omega
    rw [compareAt, if_neg (by omega), heq, List.drop_length]
    simp
  | succ k ih =>
    have hlt : index < t.length := by omega
    rw [compareAt, if_pos (by omega), if_pos ⟨by omega, by omega⟩, Nat.add_assoc,
      ih (by omega) (by omega)]
    simp only [drop_prefix_drop_iff hlt, Nat.add_assoc]
    by_cases heq : t[index]? = l[i + index]? <;> simp [heq]

/-- The loop over `j` would leave the range of an `int`. -/
theorem compareAt_error (hi : INT_MAX < i + t.length) (hindex : index < t.length) :
    compareAt t l i (i + index) index find = .error .overflow := by
  induction hk : t.length - index generalizing index find with
  | zero => omega
  | succ k ih =>
    rw [compareAt, if_pos (by omega)]
    split
    · rw [Nat.add_assoc, ih (by omega) (by omega)]
    · rfl

theorem compareAt_start (hi : i + t.length ≤ INT_MAX) :
    compareAt t l i i 0 true = .ok (decide (t <+: l.drop i)) := by
  have h : compareAt t l i (i + 0) 0 true = _ := compareAt_eq hi (Nat.zero_le _)
  simpa using h

theorem compareAt_start_error (hi : INT_MAX < i + t.length) (ht : 0 < t.length) :
    compareAt t l i i 0 true = .error .overflow := by
  have h : compareAt t l i (i + 0) 0 true = _ := compareAt_error hi ht
  exact h

/-! ### All positions -/

/-- The term stands in the line from position `p` on, and ends where an `int` can count. -/
def FoundAt (t l : Str) (p : ℕ) : Prop := t <+: l.drop p ∧ p + t.length ≤ INT_MAX

theorem positions_found (hp : FoundAt t l p) (hle : p + t.length ≤ l.length) (hi : i ≤ p) :
    positions t l i = .ok (cstr l) := by
  obtain ⟨hpre, hmax⟩ := hp
  induction hk : p - i generalizing i with
  | zero =>
    obtain rfl : i = p := by omega
    rw [positions, if_pos (by omega), compareAt_start hmax, ok_bind, if_pos (by simpa using hpre)]
  | succ k ih =>
    rw [positions, if_pos (by omega), compareAt_start (by omega), ok_bind]
    split
    · rfl
    · rw [if_pos (by omega), ih (by omega) (by omega)]

/-- A term that does not stand at a position is not empty. -/
theorem length_pos_of_not_prefix (h : ¬ t <+: l.drop p) : 0 < t.length := by
  rw [List.length_pos_iff]
  rintro rfl
  exact h List.nil_prefix

theorem positions_missing (hl : l.length ≤ INT_MAX) (hle : t.length ≤ l.length)
    (hno : ∀ p, ¬ t <+: l.drop p) : positions t l i = .ok [] := by
  have hpos := length_pos_of_not_prefix (hno i)
  induction hk : l.length - t.length + 1 - i generalizing i with
  | zero => rw [positions, if_neg (by omega)]
  | succ k ih =>
    rw [positions, if_pos (by omega), compareAt_start (by omega), ok_bind,
      if_neg (by simpa using hno i), if_pos (by omega), ih (by omega)]

theorem positions_error (hl : INT_MAX < l.length) (hpos : 0 < t.length)
    (hle : i + t.length ≤ l.length) (hno : ∀ p, ¬ FoundAt t l p) :
    positions t l i = .error .overflow := by
  induction hk : l.length - t.length + 1 - i generalizing i with
  | zero => omega
  | succ k ih =>
    rw [positions, if_pos (by omega)]
    by_cases hi : i + t.length ≤ INT_MAX
    · have hne : ¬ t <+: l.drop i := fun hpre => hno i ⟨hpre, hi⟩
      rw [compareAt_start hi, ok_bind, if_neg (by simpa using hne), if_pos (by omega),
        ih (by omega) (by omega)]
    · rw [compareAt_start_error (not_le.1 hi) hpos, error_bind]

/-! ### One line -/

/-- A line that is shorter than the term, or has less than 2 GiB, or has the term in front of where
an `int` ends. -/
def Countable (search_term line : Str) : Prop :=
  line.length < search_term.length ∨ line.length < 2 ^ 31 ∨
    search_term <:+: line.take (2 ^ 31 - 1)

theorem infix_of_prefix_drop (h : t <+: l.drop p) : t <:+: l :=
  h.isInfix.trans (List.drop_suffix p l).isInfix

theorem FoundAt.infix_take (h : FoundAt t l p) : t <:+: l.take INT_MAX := by
  obtain ⟨hpre, hmax⟩ := h
  apply infix_of_prefix_drop (p := p)
  rw [List.drop_take, List.prefix_take_iff]
  exact ⟨hpre, by omega⟩

theorem exists_foundAt (h : t <:+: l.take INT_MAX) :
    ∃ p, FoundAt t l p ∧ p + t.length ≤ l.length := by
  obtain ⟨s, u, hsu⟩ := h
  have hlen := congrArg List.length hsu
  simp only [List.length_append, List.length_take] at hlen
  refine ⟨s.length, ⟨?_, by omega⟩, by omega⟩
  rw [← List.take_append_drop INT_MAX l, ← hsu, List.append_assoc, List.append_assoc,
    List.drop_left]
  exact List.prefix_append _ _

theorem searchLine_eq (h : Countable t l) :
    searchLine t l = .ok (if t <:+: l then cstr l else []) := by
  rw [searchLine]
  by_cases hle : t.length ≤ l.length
  swap
  · have hno : ¬ t <:+: l := fun hin => hle hin.length_le
    rw [if_neg hle, if_neg hno]
  rw [if_pos hle]
  by_cases htake : t <:+: l.take INT_MAX
  · obtain ⟨p, hp, hpl⟩ := exists_foundAt htake
    rw [positions_found hp hpl (Nat.zero_le p), if_pos (infix_of_prefix_drop hp.1)]
  · have hl : l.length ≤ INT_MAX := by
      rcases h with h | h | h
      · omega
      · exact Nat.le_pred_of_lt h
      · exact absurd h htake
    rw [List.take_of_length_le hl] at htake
    rw [positions_missing hl hle fun p hp => htake (infix_of_prefix_drop hp), if_neg htake]

theorem searchLine_error (h : ¬ Countable t l) : searchLine t l = .error .overflow := by
  simp only [Countable, not_or, not_lt] at h
  obtain ⟨hle, hbig, hno⟩ := h
  have hpos : 0 < t.length := by
    rw [List.length_pos_iff]
    rintro rfl
    exact hno List.nil_infix
  rw [searchLine, if_pos hle]
  exact positions_error hbig hpos (by omega) fun p hp => hno hp.infix_take

/-! ### All lines -/

/-- The lines of a stream that contain the term, one after the other. -/
def matching (search_term : Str) (f : List UInt8) : List UInt8 :=
  ((lines f).filter fun line => search_term <:+: line).flatten

/-- No line of a stream makes the counters overflow. -/
def Searchable (search_term : Str) (f : List UInt8) : Prop :=
  ∀ line ∈ lines f, Countable search_term line

theorem search_nil : search t [] = .ok [] := by
  rw [search]
  rfl

theorem search_getline {f line rest : List UInt8} (h : getline f = some (line, rest)) :
    search t f = (do
      let out ← searchLine t line
      let outs ← search t rest
      .ok (out ++ outs)) := by
  rw [search]
  split
  · rename_i hnone
    rw [hnone] at h
    cases h
  · rename_i line' rest' hsome
    rw [hsome] at h
    cases h
    rfl

theorem search_eq {f : List UInt8} (h0 : 0 ∉ f) (h : Searchable t f) :
    search t f = .ok (matching t f) := by
  induction hlen : f.length using Nat.strong_induction_on generalizing f with
  | h n ih =>
    by_cases hne : f = []
    · rw [hne, search_nil]
      rfl
    · obtain ⟨line, rest, hget, hlines, hf⟩ := getline_lines hne
      have hlt := length_getline hget
      rw [hf, List.mem_append, not_or] at h0
      rw [Searchable, hlines, List.forall_mem_cons] at h
      rw [search_getline hget, searchLine_eq h.1, ok_bind, ih _ (hlen ▸ hlt) h0.2 h.2 rfl,
        ok_bind, matching, matching, hlines, cstr_of_not_mem h0.1]
      by_cases hin : t <:+: line <;> simp [hin]

theorem search_error {f : List UInt8} (h : ¬ Searchable t f) : ∃ e, search t f = .error e := by
  induction hlen : f.length using Nat.strong_induction_on generalizing f with
  | h n ih =>
    have hne : f ≠ [] := by
      rintro rfl
      exact h nofun
    obtain ⟨line, rest, hget, hlines, -⟩ := getline_lines hne
    have hlt := length_getline hget
    rw [Searchable, hlines, List.forall_mem_cons, not_and_or] at h
    rw [search_getline hget]
    rcases h with h | h
    · exact ⟨_, by rw [searchLine_error h, error_bind]⟩
    · obtain ⟨e, he⟩ := ih _ (hlen ▸ hlt) h rfl
      cases searchLine t line with
      | error e' => exact ⟨e', rfl⟩
      | ok out => exact ⟨e, by rw [ok_bind, he, error_bind]⟩

/-! ### All files -/

variable {fs : Str → Option (List UInt8)} {filenames : List Str}

theorem searchFiles_iff (hfs : ∀ filename ∈ filenames, ∃ f, fs filename = some f ∧ 0 ∉ f) :
    searchFiles fs t filenames = .ok ((filenames.filterMap fs).flatMap (matching t), 0) ↔
      ∀ f ∈ filenames.filterMap fs, Searchable t f := by
  induction filenames with
  | nil => simp [searchFiles]
  | cons filename filenames ih =>
    obtain ⟨⟨f, hf, h0⟩, hrest⟩ := List.forall_mem_cons.1 hfs
    rw [List.filterMap_cons_some hf, List.forall_mem_cons, List.flatMap_cons, searchFiles, hf,
      ← ih hrest]
    by_cases hs : Searchable t f
    · simp only [search_eq h0 hs, ok_bind, hs, true_and]
      cases searchFiles fs t filenames with
      | error e => simp
      | ok outs => simp [Prod.ext_iff]
    · obtain ⟨e, he⟩ := search_error hs
      simp [he, hs]

/-- A term to search for in the standard input, or in existing files if some are named.  What is
searched contains no NUL. -/
structure Request where
  fs : Str → Option (List UInt8)
  stdin : List UInt8
  name : Str
  search_term : Str
  filenames : List Str
  exist : ∀ filename ∈ filenames, ∃ f, fs filename = some f ∧ 0 ∉ f
  noNul : filenames = [] → 0 ∉ stdin

/-- The streams that are searched, in their order. -/
def Request.streams (r : Request) : List (List UInt8) :=
  if r.filenames = [] then [r.stdin] else r.filenames.filterMap r.fs

/-- A run prints the matching lines, and nothing else. -/
def Request.Prints (r : Request) : Prop :=
  main r.fs r.stdin (r.name :: r.search_term :: r.filenames) =
    .ok (r.streams.flatMap (matching r.search_term), 0)

/-- **The lines that a search prints.** -/
theorem prints_iff (r : Request) :
    r.Prints ↔ ∀ f ∈ r.streams, Searchable r.search_term f := by
  obtain ⟨fs, stdin, name, t, filenames, hfs, h0⟩ := r
  unfold Request.Prints Request.streams
  cases filenames with
  | nil =>
    simp only [main, if_pos, List.flatMap_cons, List.flatMap_nil, List.append_nil,
      List.forall_mem_singleton]
    by_cases hs : Searchable t stdin
    · simp [search_eq (h0 rfl) hs, hs]
    · obtain ⟨e, he⟩ := search_error hs
      simp [he, hs]
  | cons filename filenames =>
    simp only [main, reduceCtorEq, if_false]
    exact searchFiles_iff hfs

theorem not_mem_replicate_append {a b c : UInt8} {n : ℕ} (ha : c ≠ a) (hb : c ≠ b) :
    c ∉ List.replicate n a ++ [b] := by
  intro h
  rcases List.mem_append.1 h with h | h
  · exact ha (List.eq_of_mem_replicate h)
  · exact hb (List.mem_singleton.1 h)

/-- A line of `a`s with the term at its end only, where the counters do not get to. -/
theorem not_searchable_replicate_append {a b : UInt8} {n : ℕ} (hn : 2 ^ 31 ≤ n) (ha : 0x0A ≠ a)
    (hb : 0x0A ≠ b) (hab : b ≠ a) : ¬ Searchable [b] (List.replicate n a ++ [b]) := by
  intro hs
  have hlen : (List.replicate n a ++ [b]).length = n + 1 := by
    rw [List.length_append, List.length_replicate, List.length_singleton]
  have hline : List.replicate n a ++ [b] ∈ lines (List.replicate n a ++ [b]) := by
    rw [lines_of_not_mem (by simp) (not_mem_replicate_append ha hb)]
    exact List.mem_singleton_self _
  rcases hs _ hline with h | h | h
  · rw [hlen, List.length_singleton] at h
    omega
  · omega
  · have hin := h.subset (List.mem_singleton_self b)
    rw [List.take_append_of_le_length (by rw [List.length_replicate]; omega)] at hin
    exact hab (List.eq_of_mem_replicate (List.mem_of_mem_take hin))

/-- In the standard input, a line of 2 GiB of the letter `a` with a `b` at its end, searched for
`b`. -/
def hugeLine : Request where
  fs _ := none
  stdin := List.replicate (2 ^ 31) 0x61 ++ [0x62]
  name := []
  search_term := [0x62]
  filenames := []
  exist := nofun
  noNul _ := not_mem_replicate_append (by decide) (by decide)

theorem not_prints : ¬ hugeLine.Prints := by
  intro h
  obtain ⟨e, he⟩ := search_error (t := [0x62]) (f := hugeLine.stdin)
    (not_searchable_replicate_append le_rfl (by decide) (by decide) (by decide))
  have hmain : main hugeLine.fs hugeLine.stdin [[], [0x62]] = .error e := by
    rw [main, he, error_bind]
  exact absurd (hmain.symm.trans h) nofun

end OsProjects.Grep
