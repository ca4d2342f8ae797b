import OsProjects.Foundation.Iterate
import OsProjects.Fsck.Blocks

/-!
# The walk to the root

Pass by pass, a walk takes the pointer from one inode to the next (`walkNext`).  The only mark in
`inode_bits` is that of the directory being checked, so a walk notices a cycle of `".."` links only
if that directory is on it; on any other cycle, such as a directory without `".."`, it never ends
(`walkEnds_iff`, `terminates_iff`).
-/

namespace OsProjects.Fsck

variable {sb : Superblock} {img : Image} {stale : ℕ → ℕ → ℕ → Option Dinode} {a : Arrays}
  {start c n : ℕ}

/-- Where a pass that does not find the root leaves the pointer. -/
def walkNext (img : Image) (start c : ℕ) : Option ℕ :=
  match walkPass img start c with
  | .ok (c', false) => some c'
  | _ => none

/-! ### One pass -/

theorem walkDirents_ok {des : List Dirent} {w : ℕ × Bool} (h : walkDirents start des c = .ok w) :
    w.1 = c ∨ w.1 < 200 := by
  induction des generalizing c with
  | nil =>
    obtain rfl := pure_ok.1 h
    exact .inl rfl
  | cons de des ih =>
    unfold walkDirents at h
    split at h
    · split at h
      · obtain rfl := pure_ok.1 h
        exact .inl rfl
      · obtain ⟨_, hacc, h⟩ := bind_ok.1 h
        obtain ⟨_, -, h⟩ := bind_ok.1 h
        rcases ih h with hw | hw
        · exact .inr (hw ▸ access_ok.1 hacc)
        · exact .inr hw
    · exact ih h

theorem walkBlock_ok {addr : ℕ} {w w' : ℕ × Bool} (h : walkBlock img start addr w = .ok w') :
    w'.1 = w.1 ∨ w'.1 < 200 := by
  obtain ⟨_, -, h⟩ := bind_ok.1 h
  obtain ⟨r, hr, h⟩ := bind_ok.1 h
  obtain rfl := pure_ok.1 h
  exact walkDirents_ok (w := r) hr

/-- A pass leaves the pointer where it is or moves it to an inode of the table. -/
theorem walkPass_ok {w : ℕ × Bool} (h : walkPass img start c = .ok w) : w.1 = c ∨ w.1 < 200 := by
  have hblock : ∀ {addr : ℕ} {w w' : ℕ × Bool}, walkBlock img start addr w = .ok w' →
      w.1 = c ∨ w.1 < 200 → w'.1 = c ∨ w'.1 < 200 := by
    intro addr w w' hw hI
    rcases walkBlock_ok hw with h | h
    · exact h ▸ hI
    · exact .inr h
  obtain ⟨w₁, h₁, h⟩ := bind_ok.1 h
  have hI : w₁.1 = c ∨ w₁.1 < 200 := by
    refine foldlM_ok_preserves (I := fun w => w.1 = c ∨ w.1 < 200) h₁ (.inl rfl) ?_
    intro k _ s s' hs hk
    obtain ⟨d, -, hk⟩ := bind_ok.1 hk
    exact hblock hk hs
  obtain ⟨d, -, h⟩ := bind_ok.1 h
  obtain ⟨_, -, h⟩ := bind_ok.1 h
  exact foldlM_ok_preserves (I := fun w => w.1 = c ∨ w.1 < 200) h hI fun addr _ s s' hs hk =>
    hblock hk hs

theorem walkNext_eq_some {c' : ℕ} :
    walkNext img start c = some c' ↔ walkPass img start c = .ok (c', false) := by
  unfold walkNext
  split <;> simp_all

theorem walkNext_some (h : walkNext img start c = some n) : n = c ∨ n < 200 :=
  walkPass_ok (walkNext_eq_some.1 h)

/-- The points of a walk are its first and the inodes of the table. -/
theorem steps_walkNext_mem {k x : ℕ} (h : steps (walkNext img start) k c = some x) :
    x ∈ insert c (Finset.range 200) := by
  suffices x = c ∨ x < 200 by simpa using this
  induction k generalizing c with
  | zero => exact .inl (Option.some.inj h).symm
  | succ k ih =>
    obtain ⟨y, hy, h⟩ := steps_succ_eq_some.1 h
    rcases ih h with rfl | hx
    · exact walkNext_some hy
    · exact .inr hx

/-! ### The loop -/

/-- The loop goes on as long as there is a next pass. -/
theorem walkLoop_endless_iff :
    walkLoop img start n c = .error .endless ↔ steps (walkNext img start) n c ≠ none := by
  induction n generalizing c with
  | zero => simp [walkLoop]
  | succ n ih =>
    rw [walkLoop, steps]
    cases hp : walkPass img start c with
    | error e =>
      have hne : e ≠ .endless :=
        walkPass_raises (E := (· ≠ .endless)) (by simp) (by simp) e hp
      simp [walkNext, hp, hne]
    | ok w =>
      obtain ⟨c', root⟩ := w
      cases root with
      | true => simp [walkNext, hp, pure, Except.pure]
      | false => simpa [walkNext, hp] using ih

/-- `maxPasses` passes tell whether a walk ends. -/
theorem walkLoop_maxPasses :
    walkLoop img start maxPasses c = .error .endless ↔ ReachesCycle (walkNext img start) c := by
  rw [walkLoop_endless_iff]
  refine ⟨fun h => reachesCycle_of_steps (fun k x => steps_walkNext_mem) ?_ h,
    fun h => h.steps_ne_none⟩
  calc (insert c (Finset.range 200)).card ≤ (Finset.range 200).card + 1 := Finset.card_insert_le _ _
    _ ≤ maxPasses := by simp [maxPasses]

theorem walkToRoot_endless_iff : walkToRoot img start c = .error .endless ↔
    start < 200 ∧ ReachesCycle (walkNext img start) c := by
  simp [walkToRoot, bind_error, access_error, access_ok, walkLoop_maxPasses]

/-- The walk from `c` ends at the root or with its error. -/
def WalkEnds (img : Image) (start c : ℕ) : Prop :=
  ∃ n, walkLoop img start n c = .ok () ∨ walkLoop img start n c = .error (.exit .inaccessible)

/-- The walk from `c` comes to an inode from which a pass leaves the image or `inode_bits`. -/
def WalkFaults (img : Image) (start c : ℕ) : Prop :=
  ∃ x, Relation.ReflTransGen (Leads (walkNext img start)) c x ∧
    walkPass img start x = .error .outOfBounds

theorem walkLoop_of_fault (h : WalkFaults img start c) :
    walkLoop img start n c = .error .endless ∨ walkLoop img start n c = .error .outOfBounds := by
  obtain ⟨x, hcx, hx⟩ := h
  induction hcx using Relation.ReflTransGen.head_induction_on generalizing n with
  | refl =>
    cases n with
    | zero => exact .inl rfl
    | succ n => exact .inr (by rw [walkLoop, hx]; rfl)
  | head hy _ ih =>
    cases n with
    | zero => exact .inl rfl
    | succ n =>
      rw [walkLoop, walkNext_eq_some.1 hy]
      exact ih

theorem fault_of_walkLoop (h : walkLoop img start n c = .error .outOfBounds) :
    WalkFaults img start c := by
  induction n generalizing c with
  | zero => cases h
  | succ n ih =>
    rcases bind_error.1 h with h | ⟨⟨c', root⟩, hp, h⟩
    · exact ⟨c, .refl, h⟩
    · cases root with
      | true => cases h
      | false =>
        obtain ⟨x, hx, hf⟩ := ih h
        exact ⟨x, .head (walkNext_eq_some.2 hp) hx, hf⟩

/-- **Walks.**  A walk ends at the root or with the error exactly if it reaches no cycle of links
and stays in bounds. -/
theorem walkEnds_iff :
    WalkEnds img start c ↔ ¬ReachesCycle (walkNext img start) c ∧ ¬WalkFaults img start c := by
  constructor
  · rintro ⟨n, hn⟩
    constructor
    · intro h
      rw [walkLoop_endless_iff.2 h.steps_ne_none] at hn
      simp at hn
    · intro h
      rcases walkLoop_of_fault (n := n) h with h | h <;> simp [h] at hn
  · rintro ⟨hcyc, hfault⟩
    refine ⟨maxPasses, ?_⟩
    cases h : walkLoop img start maxPasses c with
    | ok u => exact .inl rfl
    | error e =>
      have he : e = .outOfBounds ∨ e = .exit .inaccessible ∨ e = .endless :=
        walkLoop_raises (E := fun e => e = .outOfBounds ∨ e = .exit .inaccessible ∨ e = .endless)
          (.inl rfl) (.inr (.inl rfl)) (.inr (.inr rfl)) e h
      rcases he with rfl | rfl | rfl
      · exact absurd (fault_of_walkLoop h) hfault
      · exact .inr rfl
      · exact absurd (walkLoop_maxPasses.1 h) hcyc

/-! ### The program -/

/-- The run does not go on for ever, and the walks that it starts end at the root or with the
error. -/
def Terminates (a : Arrays) (stale : ℕ → ℕ → ℕ → Option Dinode) (img : Image) : Prop :=
  main a stale img ≠ .error .endless ∧ ∀ inum c, RunsWalk a stale img inum c → WalkEnds img inum c

/-- **Termination.**  The checker terminates exactly on the images on which no walk that the run
comes to reaches a cycle of links or leaves the image or the array. -/
theorem terminates_iff : Terminates a stale img ↔ ∀ inum c, RunsWalk a stale img inum c →
    ¬ReachesCycle (walkNext img inum) c ∧ ¬WalkFaults img inum c := by
  constructor
  · rintro ⟨-, h⟩ inum c hc
    exact walkEnds_iff.1 (h inum c hc)
  · intro h
    refine ⟨fun hmain => ?_, fun inum c hc => walkEnds_iff.2 (h inum c hc)⟩
    refine main_raises (E := (· ≠ .endless)) (by simp) (by simp) (by simp) (by simp) ?_ _ hmain rfl
    rintro i c hc e he rfl
    exact (h i c hc).1 (walkToRoot_endless_iff.1 he).2

/-! ### A directory without a parent link -/

/-- The blocks that a pass over inode `d` and the search for a back pointer in it look at: those of
an address 0 are block 0. -/
def dirBlocks (img : Image) (d : Dinode) : List ℕ :=
  (List.range ndirect).map d.addrs ++ img.entries (d.addrs ndirect)

theorem walkDirents_of_none {des : List Dirent} (h : ∀ de ∈ des, de.isDotDot = false) :
    walkDirents start des c = .ok (c, false) := by
  induction des with
  | nil => rfl
  | cons de des ih =>
    obtain ⟨hde, hdes⟩ := List.forall_mem_cons.1 h
    rw [walkDirents, hde]
    exact ih hdes

theorem walkBlock_of_none {addr : ℕ} {w : ℕ × Bool} (hin : blockOff addr + bsize ≤ imgSize)
    (h : ∀ de ∈ img.dirents addr, de.isDotDot = false) : walkBlock img start addr w = .ok w := by
  have hderef : deref addr = .ok () := deref_ok.2 hin
  rw [walkBlock, hderef, walkDirents_of_none h]
  simp [pure, Except.pure]

/-- A walk that comes to a directory without `".."` stays there. -/
theorem walkNext_self (hc : 2 * bsize + 64 * c + 64 ≤ imgSize)
    (hind : blockOff ((img.dinode c).addrs ndirect) + bsize ≤ imgSize)
    (h : ∀ addr ∈ dirBlocks img (img.dinode c), blockOff addr + bsize ≤ imgSize ∧
      ∀ de ∈ img.dirents addr, de.isDotDot = false) : walkNext img start c = some c := by
  have hd : getInode img c = .ok (img.dinode c) := getInode_ok.2 ⟨hc, rfl⟩
  have hblock : ∀ addr ∈ dirBlocks img (img.dinode c),
      walkBlock img start addr (c, false) = .ok (c, false) := fun addr ha =>
    walkBlock_of_none (h addr ha).1 (h addr ha).2
  have hderef : deref ((img.dinode c).addrs ndirect) = .ok () := deref_ok.2 hind
  rw [walkNext_eq_some, walkPass, foldlM_of_self (s := (c, false))]
  · rw [ok_bind, hd, ok_bind, hderef, ok_bind]
    exact foldlM_of_self fun addr ha => hblock addr (List.mem_append_right _ ha)
  · intro k hk
    rw [hd, ok_bind]
    exact hblock _ (List.mem_append_left _ (List.mem_map_of_mem hk))

/-- The check of an entry whose walk goes on for ever. -/
theorem checkDirent_endless {inum : ℕ} {s : Dirs} {de : Dirent} (hdd : de.isDotDot = true)
    (hdot : de.isDot = false) (hin : 2 * bsize + 64 * de.inum + 64 ≤ imgSize)
    (hty : (img.dinode de.inum).type = tDir) (hnum : de.inum ≠ 0 ∧ de.inum ≠ 1)
    (hw : walkToRoot img inum de.inum = .error .endless) :
    checkDirent sb img inum s de = .error .endless := by
  have hd : getInode img de.inum = .ok (img.dinode de.inum) := getInode_ok.2 ⟨hin, rfl⟩
  have hnot : complain (de.isDot = true ∧ de.inum ≠ inum) .notFormatted = .ok () := by
    simp [complain, hdot]
  have hwalk : checkWalk img inum de = .error .endless := by
    rw [checkWalk, if_pos ⟨hdd, hnum.2⟩, hw]
  have htarget : checkTarget sb img inum s de (img.dinode de.inum) = .error .endless := by
    rw [checkTarget, if_neg (by simp [hty, tDir, tFile]), if_pos hty, hnot, ok_bind, hwalk]
    rfl
  rw [checkDirent, checkInum, if_neg hnum.1, hd, ok_bind, htarget]
  rfl

set_option maxRecDepth 20000

/-- The parent of the root directory is inode 2, a directory without blocks. -/
def orphanImage : Image := .ofChunks
  [(29 * bsize, direntBytes 2 [46, 46] ++ direntBytes 1 [46]),
    (bsize * bitmapBlock + 3, [0x20]),
    (2 * bsize + 128, dinodeBytes 1 1 0 [0, 0, 0, 0, 0, 0, 0, 0, 0, 0, 0, 0, 0]),
    (2 * bsize + 64, dinodeBytes 1 1 512 [29, 0, 0, 0, 0, 0, 0, 0, 0, 0, 0, 0, 0]),
    (bsize, mkfsSuperblock.bytes)]

theorem orphanImage_cycle : ReachesCycle (walkNext orphanImage 1) 2 := by
  have hself : walkNext orphanImage 1 2 = some 2 := by
    have hzero : ∀ addr ∈ dirBlocks orphanImage (orphanImage.dinode 2), addr = 0 := by
      decide
    have hnone : ∀ de ∈ orphanImage.dirents 0, de.isDotDot = false := by decide
    refine walkNext_self (by decide) (by decide) fun addr ha => ?_
    rw [hzero addr ha]
    exact ⟨by decide, hnone⟩
  exact ⟨2, .refl, .single hself⟩

/-- The check of the root directory of that image never ends. -/
theorem orphanImage_checkDir {s : Dirs} : checkDir mkfsSuperblock orphanImage stale 1 s
    (orphanImage.dinode 1) = .error .endless := by
  have hwalk : walkToRoot orphanImage 1 2 = .error .endless :=
    walkToRoot_endless_iff.2 ⟨by decide, orphanImage_cycle⟩
  have hty : (orphanImage.dinode 1).type = tDir ∧ (orphanImage.dinode 1).addrs 0 = 29 ∧
      (orphanImage.dinode 2).type = tDir := by decide
  obtain ⟨hdd, hdot, hnum⟩ : (orphanImage.dirent 29 0).isDotDot = true ∧
      (orphanImage.dirent 29 0).isDot = false ∧ (orphanImage.dirent 29 0).inum = 2 := by
    decide
  have hblock : blockSlots orphanImage 29 = [.block 29] ++ .direct (orphanImage.dirent 29 0) ::
      ((List.range 31).map fun k => .direct (orphanImage.dirent 29 (k + 1))) := rfl
  have hslots : ∃ suf, slots orphanImage (stale 1) (orphanImage.dinode 1) =
      [.block 29] ++ .direct (orphanImage.dirent 29 0) :: suf := by
    rw [slots, show List.range ndirect = 0 :: (List.range 11).map (· + 1) from rfl,
      List.flatMap_cons, hty.2.1, hblock]
    exact ⟨_, rfl⟩
  obtain ⟨suf, hsuf⟩ := hslots
  rw [checkDir_eq_slots hty.1, hsuf]
  refine bind_error.2 (.inl (foldlM_error_iff.2 ⟨_, _, suf, _, rfl, rfl, ?_⟩))
  refine checkDirent_endless hdd hdot ?_ ?_ ?_ ?_ <;> rw [hnum]
  · decide
  · exact hty.2.2
  · decide
  · exact hwalk

theorem orphanImage_endless : main a stale orphanImage = .error .endless := by
  have hsb : orphanImage.superblock = mkfsSuperblock := by decide
  have hclean : Clean mkfsSuperblock orphanImage
      ([] ++ inodeRefs orphanImage (orphanImage.dinode 1)) :=
    ⟨by decide, by decide, by decide⟩
  have hfree : (orphanImage.dinode 0).type = 0 := by decide
  have hpass : checkInode mkfsSuperblock orphanImage stale (State.init a) 0 = .ok (State.init a) :=
    checkInode_free (by decide) hfree
  have hM : Marked [] (State.init a).counts := marked_nil rfl rfl rfl
  have haddrs := (checkAddrs_ok_iff hM clean_nil).2 ⟨hclean, rfl⟩
  have hroot : checkInode mkfsSuperblock orphanImage stale (State.init a) 1 = .error .endless :=
    checkInode_error_of_checkDir (by decide) haddrs orphanImage_checkDir
  have hrange : List.range mkfsSuperblock.ninodes =
      [0] ++ 1 :: ((List.range 198).map Nat.succ).map Nat.succ := by
    rw [show mkfsSuperblock.ninodes = 198 + 1 + 1 from rfl, List.range_succ_eq_map,
      List.range_succ_eq_map]
    rfl
  rw [main, hsb]
  refine bind_error.2 (.inl (foldlM_error_iff.2 ⟨_, _, _, _, hrange, ?_, hroot⟩))
  exact foldlM_cons_ok.2 ⟨_, hpass, foldlM_nil_ok.2 rfl⟩

/-- On that image the checker does not terminate. -/
theorem not_terminates : ¬ ∀ (a : Arrays) (stale : ℕ → ℕ → ℕ → Option Dinode) (img : Image),
    img.superblock = mkfsSuperblock → Terminates a stale img :=
  fun h => (h .zero (fun _ _ _ => none) orphanImage (by decide)).1 orphanImage_endless

end OsProjects.Fsck
