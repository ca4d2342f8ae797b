import Mathlib.Data.List.GetD
import OsProjects.Foundation.Bytes

/-!
# Writes and records

`write m o bs` is a memory after the bytes `bs` have been stored from offset `o` on.

* `write_inside`, `write_of_lt`, `write_of_le`: what it reads afterwards;
* `word_of_bytes`, `word_of_words`: the numbers in a stretch of memory that holds known bytes, or
known numbers;
* `getD_flatMap`: the bytes of a list of records of one length.
-/

namespace OsProjects

/-- The records of one length that a list of bytes is made of. -/
theorem getD_flatMap {α β : Type*} {f : α → List β} {n : ℕ} (hf : ∀ x, (f x).length = n) {j : ℕ}
    (hj : j < n) (d : β) (xs : List α) (k : ℕ) :
    (xs.flatMap f).getD (n * k + j) d = xs[k]?.elim d fun x => (f x).getD j d := by
  induction xs generalizing k with
  | nil => simp
  | cons x xs ih =>
    rw [List.flatMap_cons]
    cases k with
    | zero =>
      rw [Nat.mul_zero, Nat.zero_add, List.getD_append _ _ _ _ (by rw [hf]; exact hj)]
      rfl
    | succ k =>
      have hle : (f x).length ≤ n * (k + 1) + j := by
        rw [hf, Nat.mul_succ]
        omega
      have hsub : n * (k + 1) + j - (f x).length = n * k + j := by
        rw [hf, Nat.mul_succ]
        omega
      rw [List.getD_append_right _ _ _ _ hle, hsub, ih]
      rfl

theorem length_flatMap_const {α β : Type*} {f : α → List β} {n : ℕ} (hf : ∀ x, (f x).length = n)
    (xs : List α) : (xs.flatMap f).length = n * xs.length := by
  induction xs with
  | nil => rfl
  | cons x xs ih =>
    rw [List.flatMap_cons, List.length_append, hf, ih, List.length_cons, Nat.mul_succ, Nat.add_comm]

/-- Numbers of blocks and places in them. -/
theorem flatMap_range_range {β : Type*} (f : ℕ → β) (w n : ℕ) :
    ((List.range n).flatMap fun b => (List.range w).map fun k => f (w * b + k)) =
      (List.range (w * n)).map f := by
  induction n with
  | zero => rfl
  | succ n ih =>
    rw [List.range_succ, List.flatMap_append, ih, Nat.mul_succ, List.range_add, List.map_append,
      List.map_map, List.flatMap_singleton]
    rfl

/-- The elements of a list by number, with a default for those behind its end. -/
theorem map_getD_range {α β : Type*} (f : α → β) (xs : List α) (z : α) {n : ℕ} (h : xs.length ≤ n) :
    (List.range n).map (fun i => f (xs.getD i z)) =
      xs.map f ++ List.replicate (n - xs.length) (f z) := by
  obtain ⟨r, rfl⟩ := Nat.exists_eq_add_of_le h
  rw [List.range_add, List.map_append, List.map_map, Nat.add_sub_cancel_left]
  congr 1
  · refine List.ext_getElem (by simp) fun i hi hi' => ?_
    rw [List.getElem_map, List.getElem_map, List.getElem_range, List.getD_eq_getElem]
  · refine List.eq_replicate_iff.2 ⟨by simp, fun y hy => ?_⟩
    obtain ⟨i, -, rfl⟩ := List.mem_map.1 hy
    rw [Function.comp_apply, List.getD_eq_default _ _ (Nat.le_add_right _ _)]

namespace Bytes

variable {m : Bytes} {a i k n o w : ℕ} {bs : List UInt8} {ns : List ℕ}

/-- The memory with the bytes `bs` from offset `o` on. -/
def write (m : Bytes) (o : ℕ) (bs : List UInt8) : Bytes := fun i =>
  if o ≤ i then bs.getD (i - o) (m i) else m i

theorem write_inside (h : k < bs.length) : m.write o bs (o + k) = bs.getD k 0 := by
  rw [write, if_pos (Nat.le_add_right o k), Nat.add_sub_cancel_left, List.getD_eq_getElem _ _ h,
    List.getD_eq_getElem _ _ h]

theorem write_of_lt (h : i < o) : m.write o bs i = m i := if_neg (not_le.2 h)

theorem write_of_le (h : o + bs.length ≤ i) : m.write o bs i = m i := by
  rw [write]
  split
  · exact List.getD_eq_default _ _ (by omega)
  · rfl

/-- A stretch of known bytes. -/
def Holds (m : Bytes) (a : ℕ) (bs : List UInt8) : Prop := ∀ k < bs.length, m (a + k) = bs.getD k 0

theorem holds_write : (m.write o bs).Holds o bs := fun _ => write_inside

theorem Holds.left {cs : List UInt8} (h : m.Holds a (bs ++ cs)) : m.Holds a bs := by
  intro k hk
  rw [h k (by rw [List.length_append]; omega), List.getD_append _ _ _ _ hk]

theorem Holds.right {cs : List UInt8} (h : m.Holds a (bs ++ cs)) : m.Holds (a + bs.length) cs := by
  intro k hk
  rw [Nat.add_assoc, h _ (by rw [List.length_append]; omega),
    List.getD_append_right _ _ _ _ (Nat.le_add_right _ _), Nat.add_sub_cancel_left]

theorem word_of_bytes (h : m.Holds a bs) : m.word bs.length a = leNat bs := by
  induction bs generalizing a with
  | nil => rfl
  | cons b bs ih =>
    have h0 : m a = b := h 0 (Nat.succ_pos _)
    have hrest : m.Holds (a + 1) bs := by
      intro k hk
      rw [Nat.add_right_comm, Nat.add_assoc, h (k + 1) (Nat.succ_lt_succ hk)]
      rfl
    rw [List.length_cons, word, leNat, h0, ih hrest]

/-- The numbers in a stretch of memory that holds their bytes. -/
theorem word_of_words (h : m.Holds a (ns.flatMap (leBytes w))) (hi : i < ns.length) :
    m.word w (a + w * i) = ns.getD i 0 % 256 ^ w := by
  induction ns generalizing a i with
  | nil => cases hi
  | cons n ns ih =>
    rw [List.flatMap_cons] at h
    cases i with
    | zero =>
      have hword := word_of_bytes h.left
      rwa [length_leBytes, leNat_leBytes] at hword
    | succ i =>
      have hrest := h.right
      rw [length_leBytes] at hrest
      rw [Nat.mul_succ, Nat.add_comm (w * i), ← Nat.add_assoc, ih hrest (Nat.lt_of_succ_lt_succ hi)]
      rfl

theorem word_zero (h : ∀ r < w, m (a + r) = 0) : m.word w a = 0 := by
  induction w generalizing a with
  | zero => rfl
  | succ w ih =>
    have h0 : m a = 0 := h 0 (Nat.succ_pos w)
    rw [word, h0, ih fun r hr => ?_]
    · rfl
    · rw [Nat.add_right_comm, Nat.add_assoc]
      exact h (r + 1) (Nat.succ_lt_succ hr)

theorem word_write (h : n < 256 ^ w) : (m.write o (leBytes w n)).word w o = n := by
  have hholds : (m.write o (leBytes w n)).Holds o (leBytes w n) := holds_write
  have hword := word_of_bytes hholds
  rwa [length_leBytes, leNat_leBytes, Nat.mod_eq_of_lt h] at hword

end Bytes

end OsProjects
