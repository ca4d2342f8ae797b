import Mathlib.Tactic
import Mathlib.Data.List.TakeWhile
import Mathlib.Data.Nat.Digits.Lemmas

/-!
# Decimal numerals

What `sprintf` writes for `%d` and what `atoi` reads.

* `atoi_printInt`: a number that has been written is read back;
* `length_decimal_le`: how many digits a number needs.
-/

namespace OsProjects

/-- The digits of a number, as characters. -/
def decimal (n : ℕ) : List UInt8 :=
  if n = 0 then [0x30] else (Nat.digits 10 n).reverse.map fun d => UInt8.ofNat (0x30 + d)

/-- `%d` -/
def printInt (z : ℤ) : List UInt8 :=
  if z < 0 then 0x2D :: decimal z.natAbs else decimal z.natAbs

def isSpace (b : UInt8) : Bool := b = 0x20 ∨ 0x09 ≤ b ∧ b ≤ 0x0D

def isDigit (b : UInt8) : Bool := 0x30 ≤ b ∧ b ≤ 0x39

/-- The value of the digits at the start of a string. -/
def readDigits (bs : List UInt8) : ℕ :=
  (bs.takeWhile isDigit).foldl (fun acc b => 10 * acc + (b.toNat - 0x30)) 0

/-- White space, a sign and digits. -/
def atoi (bs : List UInt8) : ℤ :=
  match bs.dropWhile isSpace with
  | [] => 0
  | b :: bs =>
    if b = 0x2D then -readDigits bs
    else if b = 0x2B then readDigits bs
    else readDigits (b :: bs)

theorem isDigit_ofNat {d : ℕ} (hd : d < 10) : isDigit (UInt8.ofNat (0x30 + d)) = true := by
  interval_cases d <;> decide

theorem toNat_digit {d : ℕ} (hd : d < 10) : (UInt8.ofNat (0x30 + d)).toNat - 0x30 = d := by
  interval_cases d <;> decide

theorem forall_mem_decimal (n : ℕ) : ∀ b ∈ decimal n, isDigit b = true := by
  intro b hb
  unfold decimal at hb
  split at hb
  · rw [List.mem_singleton.1 hb]
    decide
  · obtain ⟨d, hd, rfl⟩ := List.mem_map.1 hb
    exact isDigit_ofNat (Nat.digits_lt_base (by decide) (List.mem_reverse.1 hd))

theorem decimal_ne_nil (n : ℕ) : decimal n ≠ [] := by
  unfold decimal
  split
  · simp
  · rename_i hn
    simpa [Nat.digits_eq_nil_iff_eq_zero] using hn

theorem readDigits_decimal (n : ℕ) : readDigits (decimal n) = n := by
  have htake : (decimal n).takeWhile isDigit = decimal n := by
    rw [List.takeWhile_eq_self_iff]
    exact forall_mem_decimal n
  rw [readDigits, htake, decimal]
  split
  · rename_i hn
    rw [hn]
    rfl
  · rw [List.foldl_map, List.foldl_reverse]
    have hfold : ∀ ds : List ℕ, (∀ d ∈ ds, d < 10) →
        ds.foldr (fun d acc => 10 * acc + ((UInt8.ofNat (0x30 + d)).toNat - 0x30)) 0 =
          Nat.ofDigits 10 ds := by
      intro ds hds
      induction ds with
      | nil => rfl
      | cons d ds ih =>
        rw [List.forall_mem_cons] at hds
        rw [List.foldr_cons, ih hds.2, toNat_digit hds.1, Nat.ofDigits_cons]
        omega
    rw [hfold _ fun d hd => Nat.digits_lt_base (by decide) hd, Nat.ofDigits_digits]

/-- What is written is read back. -/
theorem atoi_printInt (n : ℕ) : atoi (printInt n) = n := by
  obtain ⟨b, bs, hcons⟩ := List.exists_cons_of_ne_nil (decimal_ne_nil n)
  have hdigit : isDigit b = true := forall_mem_decimal n b (by simp [hcons])
  have hprint : printInt n = b :: bs := by
    rw [printInt, if_neg (by omega), Int.natAbs_natCast, hcons]
  have hspace : isSpace b = false := by
    simp only [isDigit, decide_eq_true_eq] at hdigit
    simp only [isSpace, decide_eq_false_iff_not, not_or]
    constructor
    · rintro rfl
      exact absurd hdigit.1 (by decide)
    · intro h
      exact absurd (UInt8.le_trans hdigit.1 h.2) (by decide)
  have hsign : b ≠ 0x2D ∧ b ≠ 0x2B := by
    constructor <;> rintro rfl <;> exact absurd hdigit (by decide)
  rw [hprint, atoi, List.dropWhile_cons_of_neg (by simp [hspace])]
  show (if b = 0x2D then -(readDigits bs : ℤ) else if b = 0x2B then (readDigits bs : ℤ)
    else (readDigits (b :: bs) : ℤ)) = n
  rw [if_neg hsign.1, if_neg hsign.2, ← hcons, readDigits_decimal]

theorem length_decimal_le {n k : ℕ} (hk : 0 < k) (hn : n < 10 ^ k) : (decimal n).length ≤ k := by
  unfold decimal
  split
  · exact hk
  · rw [List.length_map, List.length_reverse]
    exact (Nat.digits_length_le_iff (by decide) n).2 hn

end OsProjects
