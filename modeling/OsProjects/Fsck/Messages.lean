import OsProjects.Foundation.Reports
import OsProjects.Fsck.Tree

/-!
# Messages

The checker with a log of what it checks, finds and writes (`Logged.main`); without the log it is
`main` (`Logged.main_result`).  All its checks but two stop the program with their message.  A `"."`
with a wrong number in a direct block is reported, and a wrong file size noted, before the program
goes on.  A run that comes to neither writes at most one message and checks nothing afterwards
(`oneMessage_iff`).
-/

namespace OsProjects.Fsck

open Reporting

variable {sb : Superblock} {img : Image} {stale : ℕ → ℕ → ℕ → Option Dinode} {a : Arrays}
  {inum i n : ℕ} {s t : Dirs} {d : Dinode} {de : Dirent} {sl : Slot}

/-- What is found and written when the program stops. -/
def Stop.last : Stop → List (Event Diag)
  | .exit d => [.found, .wrote d]
  | _ => []

theorem checks_not_mem_last (e : Stop) : .checks ∉ e.last := by
  cases e <;> simp [Stop.last]

namespace Logged

/-- A part of the program with a log. -/
abbrev R := Reporting Diag Stop

/-- A part in which every problem stops the program. -/
def run {α : Type} (x : M α) : R α := attempt Stop.last x

section Run

variable {α : Type} {x : M α}

@[simp] theorem result_run : (run x).result = x := rfl

theorem settled_run (x : M α) : Settled Stop.last (run x) := settled_attempt x

theorem prompt_run (x : M α) : Prompt Stop.last (run x) := prompt_attempt x

theorem checks_mem_run (x : M α) : .checks ∈ (run x).log := List.mem_cons_self

/-- What comes after parts that stop nothing. -/
theorem run_ok_congr {β γ : Type} {a : α} {b : β} {f : α → R γ} {g : β → R γ} (h : f a = g b) :
    run (.ok a) >>= f = run (.ok b) >>= g := by
  rw [bind_of_ok (a := a) rfl, bind_of_ok (a := b) rfl, h]
  rfl

-- A part is never looked into: the checks of the image would be evaluated.
attribute [irreducible] run

end Run

/-! ### The program -/

/-- The block `if (cur_inode->type != 0)`. -/
def checkAddrs (sb : Superblock) (img : Image) (s : Counts) (d : Dinode) : R Counts :=
  if d.type = 0 then pure s
  else do
    let s ← run ((refs img d).foldlM (checkRef sb img) { s with usedDatablock := 0 })
    flag (BadSize d s.usedDatablock) []
    pure (if BadSize d s.usedDatablock then { s with badsize := true } else s)

/-- An entry of a direct block of directory `inum`. -/
def checkDirent (sb : Superblock) (img : Image) (inum : ℕ) (s : Dirs) (de : Dirent) : R Dirs := do
  let s ← run (checkInum sb img inum s de)
  flag (de.isDot = true ∧ de.inum ≠ inum) [.notFormatted]
  pure (if de.isNamed then s
    else { s with
      curAndPreDir := s.curAndPreDir + 1
      exitCode := s.exitCode || (de.isDot && de.inum ≠ inum) })

/-- One slot of directory `inum`. -/
def checkSlot (sb : Superblock) (img : Image) (inum : ℕ) (s : Dirs) (sl : Slot) : R Dirs :=
  match sl with
  | .direct de => checkDirent sb img inum s de
  | .block _ | .indirect _ _ => run (Fsck.checkSlot sb img inum s sl)

/-- The block `if (cur_inode->type == T_DIR)`. -/
def checkDir (sb : Superblock) (img : Image) (stale : ℕ → ℕ → ℕ → Option Dinode) (inum : ℕ)
    (s : Dirs) (d : Dinode) : R Dirs :=
  if d.type ≠ tDir then pure s
  else do
    let s ← (slots img (stale inum) d).foldlM (checkSlot sb img inum) { s with curAndPreDir := 0 }
    run (complain (s.curAndPreDir ≠ 2) .notFormatted)
    pure s

/-- One turn of the first loop over the inodes. -/
def checkInode (sb : Superblock) (img : Image) (stale : ℕ → ℕ → ℕ → Option Dinode) (s : State)
    (inum : ℕ) : R State := do
  let d ← run (getInode img inum)
  run (complain (d.type ≠ 0 ∧ d.type ≠ tFile ∧ d.type ≠ tDir ∧ d.type ≠ tDev) .badInode)
  let counts ← checkAddrs sb img s.counts d
  let dirs ← checkDir sb img stale inum s.dirs d
  pure ⟨counts, dirs⟩

/-- The program after that loop. -/
def finish (sb : Superblock) (img : Image) (s : State) : R Unit := do
  (List.range sb.ninodes).foldlM (fun _ inum => run (checkReferences img s.dirs.toArrays inum)) ()
  run (complain (sb.size < 1022) .superblock)
  run (complain (s.counts.countDbInode < countDbBitmap sb img) .bitmapUnused)
  run (complain (s.counts.badsize = true) .badSize)
  run (if s.dirs.exitCode then .error .exitCode else pure ())

/-- `main` -/
def main (a : Arrays) (stale : ℕ → ℕ → ℕ → Option Dinode) (img : Image) : R Unit := do
  let sb := img.superblock
  let s ← (List.range sb.ninodes).foldlM (checkInode sb img stale) (.init a)
  finish sb img s

/-! ### Without the log -/

theorem checkAddrs_result {c : Counts} :
    (checkAddrs sb img c d).result = Fsck.checkAddrs sb img c d := by
  rw [checkAddrs, Fsck.checkAddrs]
  split
  · rfl
  · simp only [result_bind, result_run, result_flag, result_pure, ok_bind]

theorem checkDirent_result :
    (checkDirent sb img inum s de).result = Fsck.checkDirent sb img inum s de := by
  rw [checkDirent, Fsck.checkDirent]
  simp only [result_bind, result_run, result_flag, result_pure, ok_bind]

theorem checkSlot_result :
    (checkSlot sb img inum s sl).result = Fsck.checkSlot sb img inum s sl := by
  cases sl with
  | direct de => exact checkDirent_result
  | block addr => exact result_run
  | indirect ptr de => exact result_run

theorem checkDir_result :
    (checkDir sb img stale inum s d).result = Fsck.checkDir sb img stale inum s d := by
  rw [checkDir]
  split
  · rename_i hty
    rw [Fsck.checkDir, if_pos hty]
    rfl
  · rename_i hty
    rw [checkDir_eq_slots (not_not.1 hty)]
    simp only [result_bind, result_foldlM, checkSlot_result, result_run, result_pure]

theorem checkInode_result {s : State} :
    (checkInode sb img stale s inum).result = Fsck.checkInode sb img stale s inum := by
  rw [checkInode, Fsck.checkInode]
  simp only [result_bind, result_run, checkAddrs_result, checkDir_result, result_pure]

/-- **The log is only a log.** -/
theorem main_result : (main a stale img).result = Fsck.main a stale img := by
  rw [main, Fsck.main]
  simp only [checkInode_result, finish, result_bind, result_foldlM, result_run]

end Logged

/-! ### Where a run goes on -/

/-- A `"."` with a wrong number that is that of no directory, so that the other checks of an entry
pass it. -/
def Misnamed (sb : Superblock) (img : Image) (inum : ℕ) (de : Dirent) : Prop :=
  de.isDot = true ∧ de.inum ≠ inum ∧ (de.inum = 0 ∨
    2 * bsize + 64 * de.inum + 64 ≤ imgSize ∧ de.inum < sb.ninodes ∧
      (img.dinode de.inum).type ≠ 0 ∧ (img.dinode de.inum).type ≠ tDir)

/-- The run comes to the size of inode `inum`, which is wrong. -/
def SizeNoted (img : Image) (inum : ℕ) (s : State) : Prop :=
  BadSize (img.dinode inum) (usedBlocks (refs img (img.dinode inum))) ∧
    ∃ c, checkAddrs img.superblock img s.counts (img.dinode inum) = .ok c

/-- The run comes to a misnamed entry of directory `inum`. -/
def DotReported (img : Image) (stale : ℕ → ℕ → ℕ → Option Dinode) (inum : ℕ) (s : State) : Prop :=
  (img.dinode inum).type = tDir ∧
    (∃ c, checkAddrs img.superblock img s.counts (img.dinode inum) = .ok c) ∧
    ∃ pre de suf ds, slots img (stale inum) (img.dinode inum) = pre ++ .direct de :: suf ∧
      pre.foldlM (checkSlot img.superblock img inum) { s.dirs with curAndPreDir := 0 } = .ok ds ∧
      Misnamed img.superblock img inum de

/-- The run comes to inode `inum`, and to a problem after which it goes on. -/
def GoesOn (a : Arrays) (stale : ℕ → ℕ → ℕ → Option Dinode) (img : Image) (inum : ℕ) : Prop :=
  inum < img.superblock.ninodes ∧ InodeOk img inum ∧
    ∃ s, (List.range inum).foldlM (checkInode img.superblock img stale) (.init a) = .ok s ∧
      (SizeNoted img inum s ∨ DotReported img stale inum s)

/-- The other checks of a `"."` with a wrong number. -/
theorem checkInum_ok_iff (hdot : de.isDot = true) (hne : de.inum ≠ inum) :
    (∃ t, checkInum sb img inum s de = .ok t) ↔ Misnamed sb img inum de := by
  have hnamed : de.isNamed = false := by simp [Dirent.isNamed, hdot]
  rw [Misnamed, and_iff_right hdot, and_iff_right hne]
  by_cases h0 : de.inum = 0
  · rw [checkInum, if_pos h0]
    exact iff_of_true ⟨s, rfl⟩ (.inl h0)
  rw [checkInum, if_neg h0, or_iff_right h0]
  simp only [bind_ok, getInode_ok, complain_ok]
  constructor
  · rintro ⟨t, ptr, ⟨hin, rfl⟩, s₁, htarget, _, hfree, hrecord⟩
    obtain ⟨_, -, hrecord⟩ := bind_ok.1 hrecord
    obtain ⟨_, hlt, -⟩ := bind_ok.1 hrecord
    refine ⟨hin, access_ok.1 hlt, hfree, fun hdir => ?_⟩
    rw [checkTarget, if_neg (by rw [hdir]; decide), if_pos hdir] at htarget
    obtain ⟨_, hformat, -⟩ := bind_ok.1 htarget
    exact complain_ok.1 hformat ⟨hdot, hne⟩
  · rintro ⟨hin, hlt, hfree, hdir⟩
    have hacc : access (de.inum < sb.ninodes) = .ok () := access_ok.2 hlt
    have hrecord : ∀ s num, ∃ t, record sb s de num = .ok t := fun s num => by
      rw [record, bumpNamed, hnamed, hacc]
      exact ⟨_, rfl⟩
    have htarget : ∃ t, checkTarget sb img inum s de (img.dinode de.inum) = .ok t := by
      rw [checkTarget, if_neg hdir]
      split
      · rw [countFile, bump, hacc]
        exact ⟨_, rfl⟩
      · exact ⟨s, rfl⟩
    obtain ⟨s₁, hs₁⟩ := htarget
    obtain ⟨t, ht⟩ := hrecord s₁ s₁.numOfDirectory
    exact ⟨t, _, ⟨hin, rfl⟩, s₁, hs₁, (), hfree, ht⟩

namespace Logged

theorem regular {α : Type} {x : R α} (h : Settled Stop.last x) : Regular x := h.regular

theorem settled_checkAddrs {c : Counts} : Settled Stop.last (checkAddrs sb img c d) :=
  .ite (.pure _) ((settled_run _).bind fun _ => settled_flag.bind fun _ => .pure _)

theorem settled_checkSlot : Settled Stop.last (checkSlot sb img inum s sl) := by
  cases sl with
  | direct de => exact (settled_run _).bind fun _ => settled_flag.bind fun _ => .pure _
  | block addr => exact settled_run _
  | indirect ptr de => exact settled_run _

theorem settled_checkDir : Settled Stop.last (checkDir sb img stale inum s d) :=
  .ite (.pure _) ((Settled.foldlM fun _ _ => settled_checkSlot).bind fun _ =>
    (settled_run _).bind fun _ => .pure _)

theorem settled_checkInode {s : State} : Settled Stop.last (checkInode sb img stale s inum) :=
  (settled_run _).bind fun _ => (settled_run _).bind fun _ => settled_checkAddrs.bind fun _ =>
    settled_checkDir.bind fun _ => .pure _

theorem settled_finish {s : State} : Settled Stop.last (finish sb img s) :=
  (Settled.foldlM fun _ _ => settled_run _).bind fun _ => (settled_run _).bind fun _ =>
    (settled_run _).bind fun _ => (settled_run _).bind fun _ => settled_run _

/-- There are checks after the loop. -/
theorem checks_mem_finish {s : State} : .checks ∈ (finish sb img s).log := by
  rw [finish]
  refine checks_mem_bind (regular (.foldlM fun _ _ => settled_run _)) fun _ => ?_
  refine checks_mem_bind (regular (settled_run _)) fun _ => ?_
  refine checks_mem_bind (regular (settled_run _)) fun _ => ?_
  exact checks_mem_bind (regular (settled_run _)) fun _ => checks_mem_run _

theorem usedDatablock_of_ok {c c' : Counts} {rs : List Ref}
    (h : rs.foldlM (checkRef sb img) c = .ok c') :
    c'.usedDatablock = c.usedDatablock + usedBlocks rs := by
  suffices c' = rs.foldl mark c by rw [this, usedDatablock_marks]
  induction rs generalizing c with
  | nil => exact (foldlM_nil_ok.1 h).symm
  | cons r rs ih =>
    obtain ⟨c₁, hr, h⟩ := foldlM_cons_ok.1 h
    obtain ⟨-, -, rfl⟩ := checkRef_ok_iff.1 hr
    exact ih h

/-! ### Prompt parts -/

theorem prompt_checkAddrs_iff {c : Counts} :
    Prompt Stop.last (checkAddrs sb img c d) ↔
      ¬(BadSize d (usedBlocks (refs img d)) ∧ ∃ c', Fsck.checkAddrs sb img c d = .ok c') := by
  rw [checkAddrs, Fsck.checkAddrs]
  by_cases h0 : d.type = 0
  · rw [if_pos h0]
    refine iff_of_true prompt_pure fun h => ?_
    have hfile := h.1.1
    rw [h0] at hfile
    cases hfile
  rw [if_neg h0, if_neg h0, prompt_bind_iff checks_not_mem_last fun _ =>
    regular (settled_flag.bind fun _ => .pure _), and_iff_right (prompt_run _), result_run]
  have hused : ∀ c', (refs img d).foldlM (checkRef sb img) { c with usedDatablock := 0 } = .ok c' →
      c'.usedDatablock = usedBlocks (refs img d) := fun c' hc' => by
    rw [usedDatablock_of_ok hc', Nat.zero_add]
  have hflag : ∀ c' : Counts, Prompt Stop.last (do
        flag (BadSize d c'.usedDatablock) []
        pure (if BadSize d c'.usedDatablock then { c' with badsize := true } else c') : R Counts) ↔
      ¬BadSize d c'.usedDatablock := fun c' => by
    rw [prompt_bind_iff checks_not_mem_last fun _ => regular (.pure _), prompt_flag_iff]
    exact and_iff_left fun _ _ => prompt_pure
  constructor
  · rintro h ⟨hbad, t, ht⟩
    obtain ⟨c', hc', -⟩ := bind_ok.1 ht
    have hnot := (hflag c').1 (h c' hc')
    rw [hused c' hc'] at hnot
    exact hnot hbad
  · intro h c' hc'
    rw [hflag, hused c' hc']
    exact fun hbad => h ⟨hbad, _, bind_ok.2 ⟨c', hc', rfl⟩⟩

theorem prompt_checkSlot_iff : Prompt Stop.last (checkSlot sb img inum s sl) ↔
    ∀ de, sl = .direct de → ¬Misnamed sb img inum de := by
  cases sl with
  | block addr =>
    have hc : Prompt Stop.last (checkSlot sb img inum s (.block addr)) := prompt_run _
    exact iff_of_true hc nofun
  | indirect ptr de =>
    have hc : Prompt Stop.last (checkSlot sb img inum s (.indirect ptr de)) := prompt_run _
    exact iff_of_true hc nofun
  | direct de =>
    have hflag : ∀ s' : Dirs, Prompt Stop.last (do
          flag (de.isDot = true ∧ de.inum ≠ inum) [.notFormatted]
          pure (if de.isNamed then s' else { s' with
            curAndPreDir := s'.curAndPreDir + 1
            exitCode := s'.exitCode || (de.isDot && de.inum ≠ inum) }) : R Dirs) ↔
        ¬(de.isDot = true ∧ de.inum ≠ inum) := fun s' => by
      rw [prompt_bind_iff checks_not_mem_last fun _ => regular (.pure _), prompt_flag_iff]
      exact and_iff_left fun _ _ => prompt_pure
    show Prompt Stop.last (checkDirent sb img inum s de) ↔ _
    rw [checkDirent, prompt_bind_iff checks_not_mem_last fun _ =>
      regular (settled_flag.bind fun _ => .pure _), and_iff_right (prompt_run _), result_run]
    constructor
    · rintro h de' ⟨⟩ hmis
      obtain ⟨t, ht⟩ := (checkInum_ok_iff (s := s) hmis.1 hmis.2.1).2 hmis
      exact (hflag t).1 (h t ht) ⟨hmis.1, hmis.2.1⟩
    · intro h t ht
      rw [hflag]
      exact fun hdot => h de rfl ((checkInum_ok_iff hdot.1 hdot.2).1 ⟨t, ht⟩)

theorem prompt_checkDir_iff : Prompt Stop.last (checkDir sb img stale inum s d) ↔
    ¬(d.type = tDir ∧ ∃ pre de suf ds, slots img (stale inum) d = pre ++ .direct de :: suf ∧
      pre.foldlM (Fsck.checkSlot sb img inum) { s with curAndPreDir := 0 } = .ok ds ∧
      Misnamed sb img inum de) := by
  rw [checkDir]
  by_cases hty : d.type = tDir
  swap
  · rw [if_pos hty]
    exact iff_of_true prompt_pure fun h => hty h.1
  have hrest : ∀ s' : Dirs, Settled Stop.last (do
      run (complain (s'.curAndPreDir ≠ 2) .notFormatted)
      pure s' : R Dirs) := fun s' => (settled_run _).bind fun _ => .pure _
  have hrest' : ∀ s' : Dirs, Prompt Stop.last (do
      run (complain (s'.curAndPreDir ≠ 2) .notFormatted)
      pure s' : R Dirs) := fun s' => by
    rw [prompt_bind_iff checks_not_mem_last fun _ => regular (.pure _)]
    exact ⟨prompt_run _, fun _ _ => prompt_pure⟩
  rw [if_neg (not_not.2 hty), and_iff_right hty,
    prompt_bind_iff checks_not_mem_last fun s' => regular (hrest s'),
    and_iff_left fun s' _ => hrest' s',
    prompt_foldlM_iff checks_not_mem_last fun _ _ => regular settled_checkSlot]
  simp only [result_foldlM, checkSlot_result, prompt_checkSlot_iff]
  constructor
  · rintro h ⟨pre, de, suf, ds, heq, hpre, hmis⟩
    exact h pre _ suf ds heq hpre de rfl hmis
  · rintro h pre sl suf ds heq hpre de rfl hmis
    exact h ⟨pre, de, suf, ds, heq, hpre, hmis⟩

/-- The checks of the addresses and the entries of an inode. -/
theorem prompt_checkParts_iff {s : State} : Prompt Stop.last (do
      let counts ← checkAddrs sb img s.counts d
      let dirs ← checkDir sb img stale inum s.dirs d
      pure ⟨counts, dirs⟩ : R State) ↔
    Prompt Stop.last (checkAddrs sb img s.counts d) ∧
      ((∃ c, Fsck.checkAddrs sb img s.counts d = .ok c) →
        Prompt Stop.last (checkDir sb img stale inum s.dirs d)) := by
  have hdirs : ∀ c : Counts, Prompt Stop.last (do
      let dirs ← checkDir sb img stale inum s.dirs d
      pure ⟨c, dirs⟩ : R State) ↔
      Prompt Stop.last (checkDir sb img stale inum s.dirs d) := fun c => by
    rw [prompt_bind_iff checks_not_mem_last fun _ => regular (.pure _)]
    exact and_iff_left fun _ _ => prompt_pure
  rw [prompt_bind_iff checks_not_mem_last fun _ => regular (settled_checkDir.bind fun _ => .pure _)]
  simp only [checkAddrs_result, hdirs]
  exact and_congr_right fun _ => ⟨fun h ⟨c, hc⟩ => h c hc, fun h c hc => h ⟨c, hc⟩⟩

theorem prompt_checkInode_iff {s : State} :
    Prompt Stop.last (checkInode img.superblock img stale s inum) ↔
      ¬(InodeOk img inum ∧ (SizeNoted img inum s ∨ DotReported img stale inum s)) := by
  have hparts : ∀ d, Settled Stop.last (do
      let counts ← checkAddrs img.superblock img s.counts d
      let dirs ← checkDir img.superblock img stale inum s.dirs d
      pure ⟨counts, dirs⟩ : R State) := fun d =>
    settled_checkAddrs.bind fun _ => settled_checkDir.bind fun _ => .pure _
  rw [checkInode, prompt_bind_iff checks_not_mem_last fun _ =>
    regular ((settled_run _).bind fun _ => hparts _), and_iff_right (prompt_run _), result_run]
  have hbad : ∀ d : Dinode, Prompt Stop.last (do
      run (complain (d.type ≠ 0 ∧ d.type ≠ tFile ∧ d.type ≠ tDir ∧ d.type ≠ tDev) .badInode)
      let counts ← checkAddrs img.superblock img s.counts d
      let dirs ← checkDir img.superblock img stale inum s.dirs d
      pure ⟨counts, dirs⟩ : R State) ↔
      (¬(d.type ≠ 0 ∧ d.type ≠ tFile ∧ d.type ≠ tDir ∧ d.type ≠ tDev) →
        Prompt Stop.last (checkAddrs img.superblock img s.counts d) ∧
          ((∃ c, Fsck.checkAddrs img.superblock img s.counts d = .ok c) →
            Prompt Stop.last (checkDir img.superblock img stale inum s.dirs d))) :=
    fun d => by
      rw [prompt_bind_iff checks_not_mem_last fun _ => regular (hparts _),
        and_iff_right (prompt_run _), result_run]
      simp only [complain_ok, prompt_checkParts_iff]
      exact ⟨fun h => h (), fun h _ => h⟩
  simp only [hbad, getInode_ok, prompt_checkAddrs_iff, prompt_checkDir_iff]
  constructor
  · rintro h ⟨hok, hplace⟩
    obtain ⟨hsize, hdir⟩ := h _ ⟨hok.1, rfl⟩ hok.2
    rcases hplace with hplace | ⟨hty, hc, hplace⟩
    · exact hsize hplace
    · exact hdir hc ⟨hty, hplace⟩
  · rintro h d ⟨hin, rfl⟩ hty
    refine ⟨fun hsize => h ⟨⟨hin, hty⟩, .inl hsize⟩, fun hc hdir => ?_⟩
    exact h ⟨⟨hin, hty⟩, .inr ⟨hdir.1, hc, hdir.2⟩⟩

theorem prompt_finish {s : State} : Prompt Stop.last (finish sb img s) := by
  have hrun : ∀ x : M Unit, Regular (run x) := fun x => regular (settled_run x)
  have hseq : ∀ (x : M Unit) {y : Unit → R Unit}, (∀ u, Regular (y u)) →
      (∀ u, Prompt Stop.last (y u)) → Prompt Stop.last (run x >>= y) :=
    fun x y hr hc => (prompt_bind_iff checks_not_mem_last hr).2 ⟨prompt_run x, fun u _ => hc u⟩
  rw [finish, prompt_bind_iff checks_not_mem_last fun _ => (hrun _).bind fun _ => (hrun _).bind
    fun _ => (hrun _).bind fun _ => hrun _]
  refine ⟨?_, fun _ _ => hseq _ (fun _ => (hrun _).bind fun _ => (hrun _).bind fun _ => hrun _)
    fun _ => hseq _ (fun _ => (hrun _).bind fun _ => hrun _) fun _ => hseq _ (fun _ => hrun _)
      fun _ => prompt_run _⟩
  rw [prompt_foldlM_iff checks_not_mem_last fun _ _ => hrun _]
  exact fun _ _ _ _ _ _ => prompt_run _

theorem settled_loop {is : List ℕ} {s : State} :
    Settled Stop.last (is.foldlM (checkInode sb img stale) s) :=
    .foldlM fun _ _ => settled_checkInode

theorem prompt_loop_iff : Prompt Stop.last
      ((List.range img.superblock.ninodes).foldlM (checkInode img.superblock img stale) (.init a)) ↔
    ¬∃ inum, GoesOn a stale img inum := by
  rw [prompt_foldlM_iff checks_not_mem_last fun _ _ => regular settled_checkInode]
  simp only [result_foldlM, checkInode_result, prompt_checkInode_iff]
  constructor
  · rintro h ⟨inum, hi, hok, s, hs, hplace⟩
    obtain ⟨suf, hsuf⟩ : ∃ suf, List.range img.superblock.ninodes =
        List.range inum ++ inum :: suf := by
      obtain ⟨pre, suf, heq⟩ := List.append_of_mem (List.mem_range.2 hi)
      exact ⟨suf, (range_eq_append_cons heq).2 ▸ heq⟩
    exact h _ inum suf s hsuf hs ⟨hok, hplace⟩
  · rintro h pre inum suf s heq hs ⟨hok, hplace⟩
    obtain ⟨hi, rfl⟩ := range_eq_append_cons heq
    exact h ⟨inum, hi, hok, s, hs, hplace⟩

theorem prompt_main_iff :
    Prompt Stop.last (main a stale img) ↔ ¬∃ inum, GoesOn a stale img inum := by
  rw [← prompt_loop_iff]
  exact (prompt_bind_iff checks_not_mem_last fun _ => regular settled_finish).trans
    (and_iff_left fun _ _ => prompt_finish)

/-- A run that goes on makes checks after it has found a problem. -/
theorem late_main (h : ∃ inum, GoesOn a stale img inum) : Late (main a stale img).log := by
  have hloop : Settled Stop.last ((List.range img.superblock.ninodes).foldlM
      (checkInode img.superblock img stale) (.init a)) := settled_loop
  have hspoilt := hloop.cases.resolve_left fun hc => prompt_loop_iff.1 hc h
  rw [main]
  rcases hspoilt with ⟨⟨s, hs⟩, hfound⟩ | hl
  · rw [bind_of_ok hs]
    exact late_of_mem hfound checks_mem_finish
  · cases hs : Reporting.result ((List.range img.superblock.ninodes).foldlM
        (checkInode img.superblock img stale) (State.init a)) with
    | ok s =>
      rw [bind_of_ok hs]
      exact late_append_left hl
    | error e =>
      rw [bind_of_error hs]
      exact hl

/-! ### The flag of the exit code -/

/-- A prompt slot leaves the exit code. -/
theorem exitCode_of_prompt (hc : Prompt Stop.last (checkSlot sb img inum s sl))
    (h : (checkSlot sb img inum s sl).result = .ok t) (hs : s.exitCode = false) :
    t.exitCode = false := by
  rw [checkSlot_result] at h
  rw [prompt_checkSlot_iff] at hc
  cases sl with
  | block addr =>
    obtain ⟨_, -, h⟩ := bind_ok.1 h
    obtain rfl := pure_ok.1 h
    exact hs
  | direct de =>
    obtain ⟨s₁, hinum, h⟩ := bind_ok.1 h
    obtain rfl := pure_ok.1 h
    have hs₁ : s₁.exitCode = false := (checkInum_noted hinum).2.1.trans hs
    split
    · exact hs₁
    · simp only [hs₁, Bool.false_or, Bool.and_eq_false_iff, decide_eq_false_iff_not, not_not]
      by_contra hne
      simp only [not_or, Bool.not_eq_false] at hne
      exact hc de rfl ((checkInum_ok_iff hne.1 hne.2).1 ⟨s₁, hinum⟩)
  | indirect ptr de =>
    obtain ⟨_, -, h⟩ := bind_ok.1 h
    have hs' : (if de.isNamed then s else { s with curAndPreDir := s.curAndPreDir + 1 }).exitCode =
        false := by
      split <;> exact hs
    generalize (if de.isNamed then s else { s with curAndPreDir := s.curAndPreDir + 1 }) =
      s' at h hs'
    unfold checkInumIndirect at h
    split at h
    · obtain rfl := pure_ok.1 h
      exact hs'
    cases ptr with
    | none => cases h
    | some ptr =>
      obtain ⟨s₂, htarget, h⟩ := bind_ok.1 h
      obtain ⟨_, -, hrecord⟩ := bind_ok.1 h
      obtain ⟨_, -, hrecord⟩ := bind_ok.1 hrecord
      obtain ⟨_, -, hrecord⟩ := bind_ok.1 hrecord
      obtain rfl := pure_ok.1 hrecord
      show s₂.exitCode = false
      rw [checkTargetIndirect] at htarget
      split at htarget
      · obtain ⟨_, -, htarget⟩ := bind_ok.1 htarget
        obtain rfl := pure_ok.1 htarget
        exact hs'
      split at htarget
      · obtain ⟨_, -, htarget⟩ := bind_ok.1 htarget
        obtain ⟨_, -, htarget⟩ := bind_ok.1 htarget
        obtain ⟨_, -, htarget⟩ := bind_ok.1 htarget
        obtain ⟨_, -, htarget⟩ := bind_ok.1 htarget
        obtain ⟨_, -, htarget⟩ := bind_ok.1 htarget
        obtain rfl := pure_ok.1 htarget
        exact hs'
      · obtain rfl := pure_ok.1 htarget
        exact hs'

/-- A prompt directory leaves it. -/
theorem exitCode_of_checkDir (hc : Prompt Stop.last (checkDir sb img stale inum s d))
    (h : Fsck.checkDir sb img stale inum s d = .ok t) (hs : s.exitCode = false) :
    t.exitCode = false := by
  by_cases hty : d.type = tDir
  swap
  · rw [Fsck.checkDir, if_pos hty] at h
    obtain rfl := pure_ok.1 h
    exact hs
  have hrest : ∀ s' : Dirs, Settled Stop.last (do
      run (complain (s'.curAndPreDir ≠ 2) .notFormatted)
      pure s' : R Dirs) := fun s' => (settled_run _).bind fun _ => .pure _
  rw [checkDir, if_neg (not_not.2 hty),
    prompt_bind_iff checks_not_mem_last fun s' => regular (hrest s')] at hc
  rw [checkDir_eq_slots hty] at h
  obtain ⟨s', hslots, h⟩ := bind_ok.1 h
  obtain ⟨_, -, h⟩ := bind_ok.1 h
  obtain rfl := pure_ok.1 h
  refine foldlM_preserves_of_prompt (I := fun s : Dirs => s.exitCode = false) checks_not_mem_last
    (fun _ _ => regular settled_checkSlot) hc.1 (t := s') ?_ hs
    fun s sl s' hc h hs => exitCode_of_prompt hc h hs
  rw [result_foldlM]
  simpa only [checkSlot_result] using hslots

/-- A prompt loop over the inodes leaves it. -/
theorem exitCode_of_loop {is : List ℕ} {s t : State}
    (hc : Prompt Stop.last (is.foldlM (checkInode img.superblock img stale) s))
    (h : (is.foldlM (checkInode img.superblock img stale) s).result = .ok t)
    (hs : s.dirs.exitCode = false) : t.dirs.exitCode = false := by
  refine foldlM_preserves_of_prompt (I := fun s : State => s.dirs.exitCode = false)
    checks_not_mem_last (fun _ _ => regular settled_checkInode) hc h hs ?_
  intro s inum s' hc h hs
  rw [checkInode_result] at h
  obtain ⟨hok, haddrs, hdir⟩ := checkInode_ok_iff.1 h
  refine exitCode_of_checkDir ?_ hdir hs
  rw [prompt_checkInode_iff] at hc
  rw [prompt_checkDir_iff]
  exact fun hplace => hc ⟨hok, .inr ⟨hplace.1, ⟨_, haddrs⟩, hplace.2⟩⟩

/-- The exit code that was kept back belongs to a problem after which the run went on. -/
theorem goesOn_of_exitCode (h : Fsck.main a stale img = .error .exitCode) :
    ∃ inum, GoesOn a stale img inum := by
  by_contra hgo
  have hc := prompt_loop_iff.2 hgo
  have hcomplain : ∀ {c : Prop} [Decidable c] {d : Diag}, complain c d ≠ .error .exitCode :=
    fun {_} _ {_} h => Stop.noConfusion (complain_error.1 h).2
  rcases bind_error.1 h with h | ⟨s, hs, h⟩
  · refine checkInodes_raises (E := fun e => e ≠ .exitCode) (by simp) (by simp) (by simp)
      (fun i c _ => walkToRoot_raises (by simp) (by simp) (by simp)) _ h rfl
  rcases bind_error.1 h with h | ⟨_, -, h⟩
  · obtain ⟨_, i, _, _, -, -, hi⟩ := foldlM_error_iff.1 h
    exact checkReferences_raises (E := fun e => e ≠ .exitCode) (by simp) (by simp) _ hi rfl
  rcases bind_error.1 h with h | ⟨_, -, h⟩
  · exact hcomplain h
  rcases bind_error.1 h with h | ⟨_, -, h⟩
  · exact hcomplain h
  rcases bind_error.1 h with h | ⟨_, -, h⟩
  · exact hcomplain h
  have hloop : ((List.range img.superblock.ninodes).foldlM
      (checkInode img.superblock img stale) (State.init a) : R State).result = .ok s := by
    rw [result_foldlM]
    simpa only [checkInode_result] using hs
  have hexit : s.dirs.exitCode = false := exitCode_of_loop hc hloop rfl
  rw [hexit] at h
  cases h

end Logged

/-! ### The messages of a run -/

/-- The exit code of a run that ends with `exit`. -/
def exitStatus : Except Stop Unit → Option ℕ
  | .ok _ => some 0
  | .error (.exit _) | .error .exitCode => some 1
  | .error _ => none

/-- The messages that have been written. -/
def messages (log : List (Event Diag)) : List Diag :=
  log.filterMap fun
    | .wrote d => some d
    | _ => none

/-- At most one message is written, the exit code says whether, and nothing is checked once a
problem has been found. -/
structure OneMessage (log : List (Event Diag)) (n : ℕ) : Prop where
  one : (messages log).length ≤ 1
  code : n = if messages log = [] then 0 else 1
  last : ¬Late log

theorem messages_of_quiet {log : List (Event Diag)} (h : Quiet log) : messages log = [] := by
  refine List.filterMap_eq_nil_iff.2 fun e he => ?_
  rw [h e he]

/-- **One message.**  A run that exits writes one message or none, with the exit code that says so,
and checks nothing after the first problem exactly if it comes to no problem after which it goes
on. -/
theorem oneMessage_iff (h : exitStatus (main a stale img) = some n) :
    OneMessage (Logged.main a stale img).log n ↔ ¬∃ inum, GoesOn a stale img inum := by
  constructor
  · exact fun hone hgo => hone.last (Logged.late_main hgo)
  intro hgo
  have hprompt := Logged.prompt_main_iff.2 hgo
  rw [← Logged.main_result] at h
  cases hr : (Logged.main a stale img).result with
  | ok u =>
    have hquiet := (prompt_of_ok hr).1 hprompt
    rw [hr] at h
    obtain rfl := Option.some.inj h
    refine ⟨?_, ?_, not_late_of_quiet hquiet⟩
    · rw [messages_of_quiet hquiet]
      exact Nat.zero_le 1
    · rw [if_pos (messages_of_quiet hquiet)]
  | error e =>
    obtain ⟨pre, hquiet, hlog⟩ := (prompt_of_error hr).1 hprompt
    rw [hr] at h
    cases e with
    | exit d =>
      obtain rfl := Option.some.inj h
      have hmessages : messages (Logged.main a stale img).log = [d] := by
        rw [hlog, messages, List.filterMap_append]
        show messages pre ++ [d] = [d]
        rw [messages_of_quiet hquiet, List.nil_append]
      refine ⟨?_, ?_, ?_⟩
      · rw [hmessages]
        exact le_rfl
      · rw [hmessages, if_neg (List.cons_ne_nil d [])]
      · rw [hlog]
        exact not_late_of_last hquiet (by simp)
    | exitCode =>
      rw [Logged.main_result] at hr
      exact absurd (Logged.goesOn_of_exitCode hr) hgo
    | outOfBounds => cases h
    | endless => cases h

/-- The run on the image of the shared block comes to no such problem. -/
theorem oneMessage_iff_sharedImage :
    ¬∃ inum, GoesOn .zero (fun _ _ _ => none) sharedImage inum := by
  refine (oneMessage_iff (n := 0) (by rw [sharedImage_ok]; rfl)).1 ?_
  have hquiet : Quiet (Logged.main .zero (fun _ _ _ => none) sharedImage).log := by
    show ∀ e ∈ _, e = _
    decide +kernel
  have hnone := messages_of_quiet hquiet
  exact ⟨by simp [hnone], by simp [hnone], not_late_of_quiet hquiet⟩

/-- The root's `"."` has the number 0, and its link count is 2. -/
def misnamedImage : Image := .ofChunks
  [(29 * bsize, dots 0 1), (bsize * bitmapBlock + 3, [0x20]),
    (2 * bsize + 64, dinodeBytes 1 2 512 [29, 0, 0, 0, 0, 0, 0, 0, 0, 0, 0, 0, 0]),
    (bsize, mkfsSuperblock.bytes)]

/-- On that image two messages are written. -/
theorem not_oneMessage : ¬∀ (a : Arrays) (stale : ℕ → ℕ → ℕ → Option Dinode) (img : Image) (n : ℕ),
    img.superblock = mkfsSuperblock → exitStatus (main a stale img) = some n →
      OneMessage (Logged.main a stale img).log n := by
  intro h
  have hstatus : exitStatus (main .zero (fun _ _ _ => none) misnamedImage) = some 1 := by
    decide +kernel
  have hmessages : messages (Logged.main .zero (fun _ _ _ => none) misnamedImage).log =
      [.notFormatted, .dirTwice] := by decide +kernel
  have hone := (h _ _ misnamedImage 1 (by decide) hstatus).one
  rw [hmessages] at hone
  exact absurd hone (by decide)

end OsProjects.Fsck
