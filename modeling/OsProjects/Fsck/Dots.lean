import OsProjects.Fsck.Tree

/-!
# Dot entries

What the checker finds out about `"."` and `".."`.  It counts both names with one counter and looks
at the number of a `".."` only if that is the number of a directory, in an indirect block only if
the uninitialised pointer says so.  Where every directory has one of each, the second a directory,
and the search for the back pointer decides, the rest follows from the checks (`dots_iff`).
-/

namespace OsProjects.Fsck

variable {img : Image} {stale : ℕ → ℕ → ℕ → Option Dinode} {a : Arrays} {i x y : ℕ} {de : Dirent}
  {des : List Dirent}

/-- The entry `"."` of directory `i`: there is one, and it is the directory's own. -/
def OwnDot (img : Image) (i : ℕ) : Prop :=
  ∃ de, (dirEntries img (img.dinode i)).filter Dirent.isDot = [de] ∧ de.inum = i

/-- The entry `".."` of directory `i`: there is one, and it is the root's own or names a directory
that names `i`. -/
def BackDot (img : Image) (i : ℕ) : Prop :=
  ∃ de, (dirEntries img (img.dinode i)).filter Dirent.isDotDot = [de] ∧ IsDir img de.inum ∧
    if i = 1 then de.inum = 1 else Names img de.inum i

/-- The dot entries of every directory are what they should be. -/
def DotsRight (img : Image) : Prop := ∀ i, IsDir img i → OwnDot img i ∧ BackDot img i

/-- No entry names inode 0. -/
theorem ne_zero_of_mem_namings (h : x ∈ namings img i) : x ≠ 0 := by
  rw [namings] at h
  split at h
  · obtain ⟨de, hde, rfl⟩ := List.mem_map.1 h
    have hnames := (List.mem_filter.1 hde).2
    simp only [Dirent.names, Bool.and_eq_true, decide_eq_true_eq] at hnames
    exact hnames.2
  · cases h

/-- Two dot entries of which there are both kinds are one of each. -/
theorem one_of_each (htwo : (des.countP fun de => !de.isNamed) ≤ 2)
    (hdot : ∃ de ∈ des, de.isDot = true) (hdd : ∃ de ∈ des, de.isDotDot = true) :
    (∃ de, des.filter Dirent.isDot = [de]) ∧ ∃ de, des.filter Dirent.isDotDot = [de] := by
  rw [countP_not_isNamed] at htwo
  have hpos : 0 < des.countP Dirent.isDot := List.countP_pos_iff.2 hdot
  have hpos' : 0 < des.countP Dirent.isDotDot := List.countP_pos_iff.2 hdd
  rw [← List.length_eq_one_iff, ← List.length_eq_one_iff, ← List.countP_eq_length_filter,
    ← List.countP_eq_length_filter]
  omega

theorem mem_of_filter_eq {p : Dirent → Bool} (h : des.filter p = [de]) : de ∈ des ∧ p de = true :=
  List.mem_filter.1 (h ▸ List.mem_singleton_self de)

/-- Where the search for the back pointer does not decide, the parent names the directory. -/
def Answered (img : Image) : Prop :=
  ∀ x y, x ≠ 1 → Parent img x y → Checked img x ∨ Names img y x

/-- What the checks give for a directory of an image that is linked. -/
theorem Linked.dotsRight (hL : Linked img) (hback : Answered img) : DotsRight img := by
  intro i hi
  have hdirs := hL.passed.dirs i hi.1 hi.2
  obtain ⟨hdot, dd, hdd, hddd, hdir, hroot⟩ := hL.proper i hi.1 hi.2
  obtain ⟨⟨de, hde⟩, de', hde'⟩ := one_of_each hdirs.dots hdot ⟨dd, hdd, hddd⟩
  obtain ⟨hmem, hisDot⟩ := mem_of_filter_eq hde
  obtain ⟨hmem', hisDotDot⟩ := mem_of_filter_eq hde'
  refine ⟨⟨de, hde, hdirs.own de hmem hisDot⟩, de', hde', ?_⟩
  obtain rfl := hL.dotDot_unique hi hmem' hisDotDot hdd hddd
  refine ⟨hdir, ?_⟩
  split
  · exact hroot ‹_›
  · rename_i h1
    have hparent : Parent img i de'.inum := ⟨hi, hdir, de', hmem', hisDotDot, rfl⟩
    rcases hback i de'.inum h1 hparent with hchecked | hnames
    · exact hL.names_of_parent h1 hchecked hparent
    · exact hnames

/-- The `".."` of a directory whose dot entries are right. -/
theorem BackDot.of_parent (hB : BackDot img x) (hx : x ≠ 1) (h : Parent img x y) :
    Names img y x := by
  obtain ⟨de, hde, -, hback⟩ := hB
  obtain ⟨-, -, de', hmem, hdd, rfl⟩ := h
  have hmem' : de' ∈ (dirEntries img (img.dinode x)).filter Dirent.isDotDot :=
    List.mem_filter.2 ⟨hmem, hdd⟩
  rw [hde] at hmem'
  obtain rfl := List.mem_singleton.1 hmem'
  rwa [if_neg hx] at hback

/-- **Dot entries.**  In an accepted image the dot entries are what they should be exactly if inode
0 is no directory, every directory has a `"."` and a `".."`, the latter a directory, and the root's
the root, and a directory is named by its parent where the search for the back pointer does not
decide. -/
theorem dots_iff (hsb : img.superblock = mkfsSuperblock) (h : main a stale img = .ok ()) :
    DotsRight img ↔ ¬IsDir img 0 ∧ Proper img ∧ Answered img := by
  constructor
  · intro hD
    refine ⟨fun h0 => ?_, fun i hi hty => ?_, fun x y hx hparent =>
      .inr ((hD x hparent.1).2.of_parent hx hparent)⟩
    · obtain ⟨-, de, -, -, hnames⟩ := hD 0 h0
      rw [if_neg (by decide)] at hnames
      exact ne_zero_of_mem_namings hnames.2 rfl
    · obtain ⟨⟨dot, hdot, -⟩, de, hde, hdir, hback⟩ := hD i ⟨hi, hty⟩
      obtain ⟨hmem, hdd⟩ := mem_of_filter_eq hde
      refine ⟨⟨dot, mem_of_filter_eq hdot⟩, de, hmem, hdd, hdir, fun h1 => ?_⟩
      rwa [if_pos h1] at hback
  · rintro ⟨hzero, hproper, hback⟩
    exact Linked.dotsRight ⟨hsb, passed_of_ok h, hzero, hproper⟩ hback

set_option maxRecDepth 20000

/-- A directory in the root, which has an empty indirect block. -/
def grownImage : Image := .ofChunks
  [(30 * bsize, dots 2 1),
    (29 * bsize, dots 1 1 ++ direntBytes 2 [100]),
    (bsize * bitmapBlock + 3, [0xe0]),
    (2 * bsize + 64, dinodeBytes 1 1 512 [29, 0, 0, 0, 0, 0, 0, 0, 0, 0, 0, 0, 31] ++ dirInode 30),
    (bsize, mkfsSuperblock.bytes)]

theorem grownImage_ok : main .zero (fun _ _ _ => none) grownImage = .ok () := by decide +kernel

/-- Its dot entries. -/
theorem dots_iff_grownImage : DotsRight grownImage := by
  refine (dots_iff (by decide) grownImage_ok).2 ⟨by decide, by decide +kernel, ?_⟩
  rintro x y hx ⟨⟨hlt, hty⟩, -⟩
  have hdirs : ∀ x < grownImage.superblock.ninodes, (grownImage.dinode x).type = tDir →
      x = 1 ∨ x = 2 := by decide +kernel
  obtain rfl := (hdirs x hlt hty).resolve_left hx
  exact .inl (by decide +kernel)

/-- A directory with two `"."` and no `".."` passes. -/
theorem not_dotsRight : ¬∀ (a : Arrays) (stale : ℕ → ℕ → ℕ → Option Dinode) (img : Image),
    img.superblock = mkfsSuperblock → main a stale img = .ok () → DotsRight img := by
  intro h
  obtain ⟨hsb, stale, hok⟩ := strayImage_passes
  obtain ⟨-, de, hde, -⟩ := h _ _ strayImage hsb hok 2 (by decide)
  have hnone : ((dirEntries strayImage (strayImage.dinode 2)).filter Dirent.isDotDot).length =
      0 := by
    decide
  rw [hde] at hnone
  cases hnone

end OsProjects.Fsck
