import OsProjects.Fsck.Walk

/-!
# Accesses out of bounds

The checker tests every direct address and every entry of an indirect block before it uses it, and
so neither the marker arrays nor the blocks of a checked inode are left through these.  What it does
not test first is the address of the indirect block itself, the number in a directory entry, the
inodes a walk comes to, and the pointer that the indirect directory blocks read (`Defect`).  A run
leaves the image or an array exactly at such a place (`inBounds_iff`).
-/

namespace OsProjects.Fsck

variable {sb : Superblock} {img : Image} {stale : ℕ → ℕ → ℕ → Option Dinode} {a : Arrays}
  {inum : ℕ} {s : Dirs} {de : Dirent} {ptr : Dinode}

/-- The run stays inside the image and the arrays. -/
def InBounds (a : Arrays) (stale : ℕ → ℕ → ℕ → Option Dinode) (img : Image) : Prop :=
  main a stale img ≠ .error .outOfBounds

/-! ### Where a run can go wrong -/

/-- The entry is a `".."` whose walk to the root comes to an inode with an address outside the
image, or to a `".."` with a number that `inode_bits` does not have. -/
def WalkDefect (img : Image) (inum : ℕ) (de : Dirent) : Prop :=
  (de.isDotDot = true ∧ de.inum ≠ 1) ∧ WalkFaults img inum de.inum

/-- The entry is a `".."` and the inode in which the back pointer is looked for has an address
outside the image. -/
def BackDefect (img : Image) (de : Dirent) (ptr : Dinode) : Prop :=
  de.isDotDot = true ∧ ∃ addr ∈ ptr.addrs ndirect :: dirBlocks img ptr,
    imgSize < blockOff addr + bsize

/-- An entry of a directory that is read with a number out of range, or whose walk or back pointer
leaves the image; the tests before that access do not end the run. -/
def Slot.Defect (img : Image) (inum : ℕ) : Slot → Prop
  | .block _ => False
  | .direct de => de.inum ≠ 0 ∧
      if imgSize < 2 * bsize + 64 * de.inum + 64 then True
      else if (img.dinode de.inum).type = tDir then
        ¬(de.isDot = true ∧ de.inum ≠ inum) ∧
          (WalkDefect img inum de ∨ checkWalk img inum de = .ok () ∧
            (BackDefect img de (img.dinode de.inum) ∨
              checkBackPtr img inum de (img.dinode de.inum) = .ok () ∧ 200 ≤ de.inum))
      else (img.dinode de.inum).type ≠ 0 ∧ 200 ≤ de.inum
  | .indirect stale de => (¬(de.isDot = true ∧ de.inum ≠ inum) ∧ de.inum ≠ 0) ∧
      match stale with
      | none => True
      | some ptr =>
          if ptr.type = tDir then
            BackDefect img de ptr ∨ checkBackPtr img inum de ptr = .ok () ∧
              (WalkDefect img inum de ∨ checkWalk img inum de = .ok () ∧ 200 ≤ de.inum)
          else ptr.type ≠ 0 ∧ 200 ≤ de.inum

/-- The direct addresses of an inode, the references before its indirect block. -/
def directRefs (d : Dinode) : List Ref := (List.range ndirect).map fun j => .direct (d.addrs j)

/-- The run comes to the indirect block of inode `inum`, and it is none of the image's. -/
def IndirectDefect (img : Image) (inum : ℕ) (s : State) : Prop :=
  (img.dinode inum).type ≠ 0 ∧ img.superblock.size ≤ (img.dinode inum).addrs ndirect ∧
    ∃ c, (directRefs (img.dinode inum)).foldlM (checkRef img.superblock img)
      { s.counts with usedDatablock := 0 } = .ok c

/-- The run comes to a defective entry of directory `inum`. -/
def EntryDefect (img : Image) (stale : ℕ → ℕ → ℕ → Option Dinode) (inum : ℕ) (s : State) : Prop :=
  (img.dinode inum).type = tDir ∧
    (∃ c, checkAddrs img.superblock img s.counts (img.dinode inum) = .ok c) ∧
    ∃ pre sl suf ds, slots img (stale inum) (img.dinode inum) = pre ++ sl :: suf ∧
      pre.foldlM (checkSlot img.superblock img inum) { s.dirs with curAndPreDir := 0 } = .ok ds ∧
      sl.Defect img inum

/-- The run comes to inode `inum`, and to an indirect block or an entry of it that the checker uses
and has not tested. -/
def Defect (a : Arrays) (stale : ℕ → ℕ → ℕ → Option Dinode) (img : Image) (inum : ℕ) : Prop :=
  inum < img.superblock.ninodes ∧ InodeOk img inum ∧
    ∃ s, (List.range inum).foldlM (checkInode img.superblock img stale) (.init a) = .ok s ∧
      (IndirectDefect img inum s ∨ EntryDefect img stale inum s)

/-! ### Counters -/

theorem not_exit_outOfBounds {c : Prop} [Decidable c] {d : Diag} :
    complain c d ≠ .error .outOfBounds := by
  intro h
  simpa using (complain_error.1 h).2

theorem bumpNamed_ok (h : de.inum < sb.ninodes) (f : ℕ → ℤ) : ∃ g, bumpNamed sb f de = .ok g := by
  have hacc : access (de.inum < sb.ninodes) = .ok () := access_ok.2 h
  unfold bumpNamed bump
  rw [hacc]
  split <;> exact ⟨_, rfl⟩

theorem countFile_outOfBounds :
    countFile sb s de = .error .outOfBounds ↔ sb.ninodes ≤ de.inum := by
  simp [-bind_pure_comp, countFile, bump, bind_error, access_error, pure, Except.pure]

theorem countDir_outOfBounds :
    countDir sb s de = .error .outOfBounds ↔ sb.ninodes ≤ de.inum := by
  rcases Nat.lt_or_ge de.inum sb.ninodes with h | h
  · have hacc : access (de.inum < sb.ninodes) = .ok () := access_ok.2 h
    refine iff_of_false (fun hc => ?_) (by omega)
    rw [countDir, hacc, ok_bind] at hc
    rcases bind_error.1 hc with hc | ⟨_, -, hc⟩
    · exact not_exit_outOfBounds hc
    obtain ⟨g, hg⟩ := bumpNamed_ok h s.dirBlockArr
    rw [hg] at hc
    cases hc
  · refine iff_of_true ?_ h
    rw [countDir, access_error.2 ⟨by omega, rfl⟩]
    rfl

theorem record_outOfBounds {num : ℤ} :
    record sb s de num = .error .outOfBounds ↔ sb.ninodes ≤ de.inum := by
  rcases Nat.lt_or_ge de.inum sb.ninodes with h | h
  · have hacc : access (de.inum < sb.ninodes) = .ok () := access_ok.2 h
    obtain ⟨g, hg⟩ := bumpNamed_ok h s.dirPointedInodes
    rw [record, hg, ok_bind, hacc]
    exact iff_of_false nofun (by omega)
  · refine iff_of_true ?_ h
    have hacc : access (de.inum < sb.ninodes) = .error .outOfBounds :=
      access_error.2 ⟨by omega, rfl⟩
    unfold record bumpNamed bump
    rw [hacc]
    split <;> rfl

/-- An error of a sequence whose first statement does not end in it. -/
theorem complain_bind_outOfBounds {β : Type} {c : Prop} [Decidable c] {d : Diag} {f : Unit → M β} :
    (complain c d >>= f) = .error .outOfBounds ↔ ¬c ∧ f () = .error .outOfBounds := by
  by_cases hc : c
  · simp [complain, hc]
  · simp [complain, hc]

theorem unit_bind_error {β : Type} {x : M Unit} {f : Unit → M β} {e : Stop} :
    (x >>= f) = .error e ↔ x = .error e ∨ x = .ok () ∧ f () = .error e :=
  bind_error.trans (or_congr_right ⟨fun ⟨_, h⟩ => h, fun h => ⟨(), h⟩⟩)

/-! ### Walks and back pointers -/

theorem walkToRoot_outOfBounds {start c : ℕ} (h : start < 200) :
    walkToRoot img start c = .error .outOfBounds ↔ WalkFaults img start c := by
  have hacc : access (start < 200) = .ok () := access_ok.2 h
  rw [walkToRoot, hacc, ok_bind]
  constructor
  · exact fault_of_walkLoop
  · intro hf
    rcases walkLoop_of_fault (n := maxPasses) hf with hl | hl
    · -- A walk that goes round a cycle comes to no place where it leaves the image.
      obtain ⟨x, hx, hpass⟩ := hf
      have hcyc := walkLoop_maxPasses.1 hl
      have hend : walkNext img start x = none := by
        rw [walkNext, hpass]
      obtain ⟨n, hn⟩ := steps_of_reflTransGen hx
      have hlast : steps (walkNext img start) (n + 1) c = none := by
        rw [steps_add, hn, Option.bind_some, steps, hend]
        rfl
      exact absurd hlast hcyc.steps_ne_none
    · exact hl

theorem checkWalk_outOfBounds (h : inum < 200) :
    checkWalk img inum de = .error .outOfBounds ↔ WalkDefect img inum de := by
  unfold checkWalk WalkDefect
  split
  · rename_i hc
    rw [walkToRoot_outOfBounds h]
    exact (and_iff_right hc).symm
  · rename_i hc
    exact iff_of_false nofun fun hd => hc hd.1

theorem deref_outOfBounds {addr : ℕ} :
    deref addr = .error .outOfBounds ↔ imgSize < blockOff addr + bsize := by
  simp [deref, access_error]

theorem deref_cases (addr : ℕ) :
    deref addr = .ok () ∨ deref addr = .error .outOfBounds := by
  rcases Nat.lt_or_ge imgSize (blockOff addr + bsize) with h | h
  · exact .inr (deref_outOfBounds.2 h)
  · exact .inl (deref_ok.2 h)

/-- A loop over blocks that keeps looking. -/
theorem foldlM_deref_outOfBounds {σ : Type} (f : σ → ℕ → σ) (addr : ℕ → ℕ) {ks : List ℕ} {w : σ} :
    ks.foldlM (fun w k => do deref (addr k); pure (f w k)) w = .error .outOfBounds ↔
      ∃ k ∈ ks, imgSize < blockOff (addr k) + bsize := by
  induction ks generalizing w with
  | nil => exact iff_of_false nofun (by simp)
  | cons k ks ih =>
    rw [List.foldlM_cons, List.exists_mem_cons_iff, ← deref_outOfBounds]
    rcases deref_cases (addr k) with h | h
    · rw [h, ok_bind]
      exact ih.trans (by simp)
    · rw [h]
      exact iff_of_true rfl (.inl rfl)

theorem foldlM_deref_ok {σ : Type} (f : σ → ℕ → σ) (addr : ℕ → ℕ) {ks : List ℕ} {w : σ}
    (h : ¬∃ k ∈ ks, imgSize < blockOff (addr k) + bsize) :
    ∃ w', ks.foldlM (fun w k => do deref (addr k); pure (f w k)) w = .ok w' := by
  induction ks generalizing w with
  | nil => exact ⟨w, rfl⟩
  | cons k ks ih =>
    rw [List.exists_mem_cons_iff, not_or] at h
    have hk : deref (addr k) = .ok () := deref_ok.2 (by omega)
    rw [List.foldlM_cons, hk]
    exact ih h.2

theorem backPtr_outOfBounds : backPtr img inum ptr = .error .outOfBounds ↔
    ∃ addr ∈ ptr.addrs ndirect :: dirBlocks img ptr, imgSize < blockOff addr + bsize := by
  have hblocks : (∃ addr ∈ ptr.addrs ndirect :: dirBlocks img ptr,
      imgSize < blockOff addr + bsize) ↔ imgSize < blockOff (ptr.addrs ndirect) + bsize ∨
      (∃ n ∈ List.range ndirect, imgSize < blockOff (ptr.addrs n) + bsize) ∨
      ∃ addr ∈ img.entries (ptr.addrs ndirect), imgSize < blockOff addr + bsize := by
    simp [dirBlocks, or_and_right, exists_or]
  rw [hblocks]
  by_cases hdir : ∃ n ∈ List.range ndirect, imgSize < blockOff (ptr.addrs n) + bsize
  · rw [backPtr, (foldlM_deref_outOfBounds _ ptr.addrs).2 hdir]
    exact iff_of_true rfl (.inr (.inl hdir))
  obtain ⟨found, hfound⟩ := foldlM_deref_ok
    (fun found n => found || (img.dirents (ptr.addrs n)).any (·.inum = inum)) ptr.addrs hdir
  rw [backPtr, hfound, ok_bind]
  by_cases hind : imgSize < blockOff (ptr.addrs ndirect) + bsize
  · rw [deref_outOfBounds.2 hind]
    exact iff_of_true rfl (.inl hind)
  have hderef : deref (ptr.addrs ndirect) = .ok () := deref_ok.2 (by omega)
  rw [hderef, ok_bind, or_iff_right hind, or_iff_right hdir]
  exact foldlM_deref_outOfBounds _ fun addr => addr

theorem checkBackPtr_outOfBounds :
    checkBackPtr img inum de ptr = .error .outOfBounds ↔ BackDefect img de ptr := by
  unfold checkBackPtr BackDefect
  split
  · rename_i hdd
    rw [bind_error, backPtr_outOfBounds]
    simp [hdd, not_exit_outOfBounds]
  · rename_i hdd
    exact iff_of_false pure_ne_error fun hd => hdd hd.1

/-! ### Entries -/

theorem countDir_ok_lt {t : Dirs} (h : countDir sb s de = .ok t) : de.inum < sb.ninodes := by
  by_contra hlt
  rw [countDir_outOfBounds.2 (by omega)] at h
  cases h

/-- The statements after the cases of `ptr->type`: a number that is out of range has passed them
only if the inode it names is no file or directory. -/
theorem record_target_outOfBounds {x : M Dirs} (num : Dirs → ℤ) {P : Prop}
    (hfile : ptr.type = tFile → x = countFile sb s de)
    (hdir : ptr.type = tDir → (x = .error .outOfBounds ↔ P) ∧ ∀ t, x = .ok t → de.inum < sb.ninodes)
    (hother : ptr.type ≠ tFile → ptr.type ≠ tDir → x = .ok s) :
    (do let t ← x; complain (ptr.type = 0) .referredFree; record sb t de (num t)) =
        (.error .outOfBounds : M Dirs) ↔
      if ptr.type = tDir then P else ptr.type ≠ 0 ∧ sb.ninodes ≤ de.inum := by
  have htail : ∀ t, (do complain (ptr.type = 0) .referredFree; record sb t de (num t)) =
      (.error .outOfBounds : M Dirs) ↔ ptr.type ≠ 0 ∧ sb.ninodes ≤ de.inum := fun t => by
    rw [complain_bind_outOfBounds, record_outOfBounds]
  rw [bind_error]
  simp only [htail]
  split
  · rename_i hty
    obtain ⟨hiff, hlt⟩ := hdir hty
    refine ⟨fun h => ?_, fun h => .inl (hiff.2 h)⟩
    rcases h with h | ⟨t, ht, -, hle⟩
    · exact hiff.1 h
    · have := hlt t ht
      omega
  · rename_i hty
    by_cases hf : ptr.type = tFile
    · have h0 : ptr.type ≠ 0 := by simp [hf, tFile]
      rw [hfile hf, countFile_outOfBounds]
      refine ⟨fun h => ?_, fun h => .inl h.2⟩
      rcases h with h | ⟨t, -, h⟩
      · exact ⟨h0, h⟩
      · exact h
    · rw [hother hf hty]
      simp

/-- An entry of a direct block. -/
theorem checkDirent_outOfBounds (hi : inum < 200) (hn : sb.ninodes = 200) :
    checkDirent sb img inum s de = .error .outOfBounds ↔ (Slot.direct de).Defect img inum := by
  have hlast : checkDirent sb img inum s de = .error .outOfBounds ↔
      checkInum sb img inum s de = .error .outOfBounds := by
    rw [checkDirent, bind_error]
    refine or_iff_left ?_
    rintro ⟨t, -, h⟩
    exact pure_ne_error h
  rw [hlast, checkInum, Slot.Defect]
  by_cases h0 : de.inum = 0
  · rw [if_pos h0]
    exact iff_of_false pure_ne_error fun h => h.1 h0
  rw [if_neg h0, and_iff_right h0]
  by_cases hin : imgSize < 2 * bsize + 64 * de.inum + 64
  · rw [if_pos hin, getInode, access_error.2 ⟨by omega, rfl⟩]
    exact iff_of_true rfl trivial
  have hget : getInode img de.inum = .ok (img.dinode de.inum) := getInode_ok.2 ⟨by omega, rfl⟩
  rw [if_neg hin, hget, ok_bind, ← hn]
  generalize img.dinode de.inum = ptr
  refine record_target_outOfBounds (fun t => t.numOfDirectory) (fun hty => if_pos hty)
    (fun hty => ?_) fun hf hd => by rw [checkTarget, if_neg hf, if_neg hd]; rfl
  rw [checkTarget, if_neg (by simp [hty, tFile, tDir]), if_pos hty]
  constructor
  · rw [complain_bind_outOfBounds, unit_bind_error, checkWalk_outOfBounds hi, unit_bind_error,
      checkBackPtr_outOfBounds, countDir_outOfBounds]
  · intro t ht
    obtain ⟨_, -, ht⟩ := bind_ok.1 ht
    obtain ⟨_, -, ht⟩ := bind_ok.1 ht
    obtain ⟨_, -, ht⟩ := bind_ok.1 ht
    exact countDir_ok_lt ht

/-- An entry of an indirect block. -/
theorem checkDirentIndirect_outOfBounds {stale : Option Dinode} (hi : inum < 200)
    (hn : sb.ninodes = 200) : checkDirentIndirect sb img inum stale s de = .error .outOfBounds ↔
      (Slot.indirect stale de).Defect img inum := by
  unfold checkDirentIndirect checkInumIndirect Slot.Defect
  dsimp only
  rw [complain_bind_outOfBounds, and_assoc]
  refine and_congr_right fun _ => ?_
  by_cases h0 : de.inum = 0
  · rw [if_pos h0]
    exact iff_of_false nofun fun h => h.1 h0
  rw [if_neg h0, and_iff_right h0]
  cases stale with
  | none => exact iff_of_true rfl trivial
  | some ptr =>
    dsimp only
    rw [← hn]
    refine record_target_outOfBounds (fun t => t.numOfDirectory + 1) (fun hty => if_pos hty)
      (fun hty => ?_) fun hf hd => by rw [checkTargetIndirect, if_neg hf, if_neg hd]; rfl
    rw [checkTargetIndirect, if_neg (by simp [hty, tFile, tDir]), if_pos hty]
    constructor
    · rw [unit_bind_error, checkBackPtr_outOfBounds, unit_bind_error, checkWalk_outOfBounds hi,
        countDir_outOfBounds]
    · intro t ht
      obtain ⟨_, -, ht⟩ := bind_ok.1 ht
      obtain ⟨_, -, ht⟩ := bind_ok.1 ht
      exact countDir_ok_lt ht

/-! ### Blocks -/

theorem refOk_of_checkAddrs {c c' : Counts} {d : Dinode} (h : checkAddrs sb img c d = .ok c')
    (h0 : d.type ≠ 0) : ∀ r ∈ refs img d, RefOk sb img r := by
  intro r hr
  rw [checkAddrs, if_neg h0] at h
  obtain ⟨c₁, h, -⟩ := bind_ok.1 h
  obtain ⟨s₁, s₂, hs⟩ := foldlM_ok_mem h hr
  exact (checkRef_ok_iff.1 hs).1

theorem block_inside {addr : ℕ} (h : addr < 1024) : blockOff addr + bsize ≤ imgSize := by
  unfold blockOff bsize imgSize bsize
  omega

theorem lt_of_not_outOfRange {addr : ℕ} (h : ¬OutOfRange mkfsSuperblock addr) : addr < 1024 := by
  simp only [OutOfRange, usub, mkfsSuperblock] at h
  omega

/-- The blocks of a directory whose addresses have been checked are blocks of the image. -/
theorem deref_of_slot {st : ℕ → ℕ → Option Dinode} {d : Dinode} {addr : ℕ}
    (h : ∀ r ∈ refs img d, RefOk mkfsSuperblock img r) (hmem : .block addr ∈ slots img st d) :
    deref addr = .ok () := by
  rw [deref_ok]
  rcases List.mem_append.1 hmem with hmem | hmem
  · obtain ⟨j, hj, hmem⟩ := List.mem_flatMap.1 hmem
    have href : RefOk mkfsSuperblock img (.direct (d.addrs j)) :=
      h _ (List.mem_append_left _ (List.mem_map_of_mem hj))
    unfold blockSlots at hmem
    split at hmem
    · cases hmem
    · rename_i h0
      obtain rfl : addr = d.addrs j := by simpa using hmem
      exact block_inside (lt_of_not_outOfRange (href h0).1)
  · unfold indirectSlots at hmem
    split at hmem
    · cases hmem
    rcases List.mem_cons.1 hmem with hmem | hmem
    · obtain rfl := Slot.block.inj hmem
      exact (h (.indirect (d.addrs ndirect)) (by simp [refs])).2
    · obtain ⟨k, hk, hmem⟩ := List.mem_flatMap.1 hmem
      obtain rfl : addr = img.entry (d.addrs ndirect) k := by simpa using hmem
      have href : RefOk mkfsSuperblock img (.entry (img.entry (d.addrs ndirect) k)) := by
        refine h _ (List.mem_append_right _ (List.mem_cons_of_mem _ (List.mem_map_of_mem ?_)))
        exact List.mem_map_of_mem hk
      by_cases h0 : img.entry (d.addrs ndirect) k = 0
      · exact block_inside (by omega)
      · exact block_inside (lt_of_not_outOfRange (href h0).1)

/-! ### The loops -/

theorem checkRef_outOfBounds {c : Counts} {r : Ref} :
    checkRef mkfsSuperblock img c r = .error .outOfBounds ↔
      ∃ addr, r = .indirect addr ∧ 1024 ≤ addr := by
  cases r with
  | direct addr | entry addr =>
    refine iff_of_false (fun h => ?_) (by simp)
    simp only [checkRef] at h
    split at h
    · cases h
    rw [complain_bind_outOfBounds, complain_bind_outOfBounds] at h
    obtain ⟨hrange, -, h⟩ := h
    have hacc : access (addr < mkfsSuperblock.size) = .ok () :=
      access_ok.2 (lt_of_not_outOfRange hrange)
    rw [hacc, ok_bind, complain_bind_outOfBounds] at h
    cases h.2
  | indirect addr =>
    simp only [Ref.indirect.injEq, exists_eq_left']
    rw [checkRef, markIndirect]
    by_cases h0 : addr = 0
    · have hderef : deref addr = .ok () := deref_ok.2 (block_inside (by omega))
      rw [if_pos h0, pure_bind, hderef]
      exact iff_of_false pure_ne_error (by omega)
    rw [if_neg h0]
    rcases Nat.lt_or_ge addr 1024 with h | h
    · have hacc : access (addr < mkfsSuperblock.size) = .ok () := access_ok.2 h
      have hderef : deref addr = .ok () := deref_ok.2 (block_inside h)
      rw [hacc, ok_bind, hderef, bind_assoc, complain_bind_outOfBounds]
      exact iff_of_false (fun h => pure_ne_error h.2) (by omega)
    · have hacc : access (addr < mkfsSuperblock.size) = .error .outOfBounds :=
        access_error.2 ⟨not_lt.2 h, rfl⟩
      rw [hacc]
      exact iff_of_true rfl h

theorem foldlM_checkRef_outOfBounds {c : Counts} {rs : List Ref}
    (h : ∀ addr, .indirect addr ∉ rs) :
    rs.foldlM (checkRef mkfsSuperblock img) c ≠ .error .outOfBounds := by
  intro he
  obtain ⟨pre, r, suf, c', rfl, -, hr⟩ := foldlM_error_iff.1 he
  obtain ⟨addr, rfl, -⟩ := checkRef_outOfBounds.1 hr
  exact h addr (by simp)

/-- The address checks of an inode leave the marker array at its indirect block only. -/
theorem checkAddrs_outOfBounds {c : Counts} {d : Dinode} :
    checkAddrs mkfsSuperblock img c d = .error .outOfBounds ↔
      d.type ≠ 0 ∧ 1024 ≤ d.addrs ndirect ∧ ∃ c', (directRefs d).foldlM
        (checkRef mkfsSuperblock img) { c with usedDatablock := 0 } = .ok c' := by
  rw [checkAddrs]
  by_cases h0 : d.type = 0
  · rw [if_pos h0]
    exact iff_of_false pure_ne_error fun h => h.1 h0
  rw [if_neg h0, and_iff_right h0, bind_error]
  have hlast : ∀ {x : M Counts} {f : Counts → Counts},
      (x = .error .outOfBounds ∨ ∃ t, x = .ok t ∧ pure (f t) = (.error .outOfBounds : M Counts)) ↔
        x = .error .outOfBounds := by
    refine or_iff_left ?_
    rintro ⟨t, -, h⟩
    exact pure_ne_error h
  have hdirect : ∀ c, (directRefs d).foldlM (checkRef mkfsSuperblock img) c ≠
      .error .outOfBounds := fun c => foldlM_checkRef_outOfBounds (by simp [directRefs])
  have hentry : ∀ c, ((img.entries (d.addrs ndirect)).map Ref.entry).foldlM
      (checkRef mkfsSuperblock img) c ≠ .error .outOfBounds := fun c =>
    foldlM_checkRef_outOfBounds (by simp)
  rw [hlast, refs, ← directRefs, List.foldlM_append, bind_error, or_iff_right (hdirect _)]
  simp only [List.foldlM_cons, bind_error, checkRef_outOfBounds, hentry, and_false, exists_false,
    or_false, Ref.indirect.injEq, exists_eq_left', exists_and_right]
  exact and_comm

/-- The checks of a directory whose addresses have been checked. -/
theorem checkDir_outOfBounds {st : ℕ → ℕ → ℕ → Option Dinode} {d : Dinode} (hi : inum < 200)
    (h : ∀ r ∈ refs img d, RefOk mkfsSuperblock img r) (hty : d.type = tDir) :
    checkDir mkfsSuperblock img st inum s d = .error .outOfBounds ↔
      ∃ pre sl suf ds, slots img (st inum) d = pre ++ sl :: suf ∧
        pre.foldlM (checkSlot mkfsSuperblock img inum) { s with curAndPreDir := 0 } = .ok ds ∧
        sl.Defect img inum := by
  have hslot : ∀ sl ∈ slots img (st inum) d, ∀ ds,
      checkSlot mkfsSuperblock img inum ds sl = .error .outOfBounds ↔ sl.Defect img inum := by
    intro sl hsl ds
    cases sl with
    | block addr =>
      rw [checkSlot, deref_of_slot h hsl]
      exact iff_of_false pure_ne_error id
    | direct de => exact checkDirent_outOfBounds hi rfl
    | indirect stale de => exact checkDirentIndirect_outOfBounds hi rfl
  rw [checkDir_eq_slots hty, bind_error, foldlM_error_iff]
  constructor
  · rintro (⟨pre, sl, suf, ds, heq, hpre, hsl⟩ | ⟨ds, -, he⟩)
    · exact ⟨pre, sl, suf, ds, heq, hpre, (hslot sl (heq ▸ by simp) ds).1 hsl⟩
    · rw [complain_bind_outOfBounds] at he
      cases he.2
  · rintro ⟨pre, sl, suf, ds, heq, hpre, hsl⟩
    exact .inl ⟨pre, sl, suf, ds, heq, hpre, (hslot sl (heq ▸ by simp) ds).2 hsl⟩

theorem inode_inside {i : ℕ} (h : i < 200) : 2 * bsize + 64 * i + 64 ≤ imgSize := by
  unfold imgSize bsize
  omega

/-- One turn of the loop over the inodes. -/
theorem checkInode_outOfBounds (hg : img.superblock = mkfsSuperblock) (hi : inum < 200)
    {t : State} : checkInode mkfsSuperblock img stale t inum = .error .outOfBounds ↔
      InodeOk img inum ∧ (IndirectDefect img inum t ∨ EntryDefect img stale inum t) := by
  have hget : getInode img inum = .ok (img.dinode inum) :=
    getInode_ok.2 ⟨inode_inside hi, rfl⟩
  have hok : InodeOk img inum ↔ ¬((img.dinode inum).type ≠ 0 ∧ (img.dinode inum).type ≠ tFile ∧
      (img.dinode inum).type ≠ tDir ∧ (img.dinode inum).type ≠ tDev) :=
    and_iff_right (inode_inside hi)
  rw [checkInode, hget, ok_bind, complain_bind_outOfBounds, hok, bind_error,
    checkAddrs_outOfBounds]
  refine and_congr_right fun _ => or_congr ?_ ?_
  · rw [IndirectDefect, hg]
    rfl
  · rw [EntryDefect, hg]
    by_cases hty : (img.dinode inum).type = tDir
    swap
    · refine iff_of_false ?_ fun h => hty h.1
      rintro ⟨c, -, h⟩
      rw [checkDir, if_pos hty] at h
      cases h
    rw [and_iff_right hty]
    constructor
    · rintro ⟨c, hc, h⟩
      have href := refOk_of_checkAddrs hc (by simp [hty, tDir])
      refine ⟨⟨c, hc⟩, (checkDir_outOfBounds hi href hty).1 ?_⟩
      rcases bind_error.1 h with h | ⟨ds, -, h⟩
      · exact h
      · cases h
    · rintro ⟨⟨c, hc⟩, h⟩
      have href := refOk_of_checkAddrs hc (by simp [hty, tDir])
      exact ⟨c, hc, bind_error.2 (.inl ((checkDir_outOfBounds hi href hty).2 h))⟩

/-- The turn of a loop that stops, and the turns before it. -/
theorem foldlM_range_error_iff {σ : Type} {f : σ → ℕ → M σ} {t : σ} {n : ℕ} {e : Stop} :
    (List.range n).foldlM f t = .error e ↔
      ∃ i < n, ∃ t', (List.range i).foldlM f t = .ok t' ∧ f t' i = .error e := by
  induction n with
  | zero => exact iff_of_false nofun (by simp)
  | succ n ih =>
    rw [List.range_succ, List.foldlM_append, bind_error, ih]
    simp only [List.foldlM_cons, List.foldlM_nil, bind_pure]
    constructor
    · rintro (⟨i, hi, h⟩ | ⟨t', ht, h⟩)
      · exact ⟨i, by omega, h⟩
      · exact ⟨n, by omega, t', ht, h⟩
    · rintro ⟨i, hi, t', ht, h⟩
      rcases Nat.lt_succ_iff_lt_or_eq.1 hi with hlt | rfl
      · exact .inl ⟨i, hlt, t', ht, h⟩
      · exact .inr ⟨t', ht, h⟩

/-- **Accesses in bounds.**  A run stays inside the image and the arrays exactly if it comes to no
indirect block and to no entry that is defective. -/
theorem inBounds_iff (hg : img.superblock = mkfsSuperblock) :
    InBounds a stale img ↔ ¬∃ inum, Defect a stale img inum := by
  have hfirst : main a stale img = .error .outOfBounds ↔
      (List.range img.superblock.ninodes).foldlM (checkInode img.superblock img stale) (.init a) =
        .error .outOfBounds := by
    rw [main, bind_error]
    refine or_iff_left ?_
    rintro ⟨s, -, h⟩
    rcases unit_bind_error.1 h with h | ⟨-, h⟩
    · obtain ⟨i, hi, _, -, hr⟩ := foldlM_range_error_iff.1 h
      rw [hg] at hi
      have hget : getInode img i = .ok (img.dinode i) := getInode_ok.2 ⟨inode_inside hi, rfl⟩
      rw [checkReferences, hget, ok_bind, complain_bind_outOfBounds,
        complain_bind_outOfBounds] at hr
      exact not_exit_outOfBounds hr.2.2
    · rw [complain_bind_outOfBounds, complain_bind_outOfBounds, complain_bind_outOfBounds] at h
      have hlast := h.2.2.2
      split at hlast <;> cases hlast
  rw [InBounds, Ne, hfirst, foldlM_range_error_iff, hg]
  refine not_congr (exists_congr fun i => ?_)
  rw [Defect, hg]
  refine and_congr_right fun hi => ?_
  have hturn : ∀ t, checkInode mkfsSuperblock img stale t i = .error .outOfBounds ↔
      InodeOk img i ∧ (IndirectDefect img i t ∨ EntryDefect img stale i t) := fun t =>
    checkInode_outOfBounds hg hi
  simp only [hturn]
  constructor
  · rintro ⟨t, ht, hok, h⟩
    exact ⟨hok, t, ht, h⟩
  · rintro ⟨hok, t, ht, h⟩
    exact ⟨t, ht, hok, h⟩

set_option maxRecDepth 20000

/-- The root is a file whose indirect block would be block 1024. -/
def beyondImage : Image := .ofChunks
  [(2 * bsize + 64, dinodeBytes 2 0 0 [0, 0, 0, 0, 0, 0, 0, 0, 0, 0, 0, 0, 1024]),
    (bsize, mkfsSuperblock.bytes)]

/-- On that image the checker indexes a marker array with 1024. -/
theorem not_inBounds : ¬∀ (a : Arrays) (stale : ℕ → ℕ → ℕ → Option Dinode) (img : Image),
    img.superblock = mkfsSuperblock → InBounds a stale img := by
  intro h
  have hmain : main .zero (fun _ _ _ => none) beyondImage = .error .outOfBounds := by
    decide
  exact h _ _ beyondImage (by decide) hmain

/-- The image of the shared block has no such places. -/
theorem inBounds_iff_sharedImage : ¬∃ inum, Defect .zero (fun _ _ _ => none) sharedImage inum := by
  refine (inBounds_iff (by decide)).1 ?_
  rw [InBounds, sharedImage_ok]
  nofun

end OsProjects.Fsck
