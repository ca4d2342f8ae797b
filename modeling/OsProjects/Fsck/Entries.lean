import OsProjects.Fsck.Addresses

/-!
# The directory loops as one loop

The nested loops over the blocks and entries of a directory are one loop over a list of slots
(`checkDir_eq_slots`): a slot is a block that is looked at, or an entry of a direct or of an
indirect block.
-/

namespace OsProjects.Fsck

variable {sb : Superblock} {img : Image} {inum : ℕ} {s t : Dirs} {d : Dinode}

/-- A turn of the loops over a directory; `indirect` carries what the uninitialised pointer
reads. -/
inductive Slot
  | block (addr : ℕ)
  | direct (de : Dirent)
  | indirect (stale : Option Dinode) (de : Dirent)

/-- The slots of the direct block `addr`. -/
def blockSlots (img : Image) (addr : ℕ) : List Slot :=
  if addr = 0 then [] else .block addr :: (img.dirents addr).map .direct

/-- The slots of the indirect block `addr`. -/
def indirectSlots (img : Image) (stale : ℕ → ℕ → Option Dinode) (addr : ℕ) : List Slot :=
  if addr = 0 then []
  else .block addr :: (List.range nindirect).flatMap fun k => .block (img.entry addr k) ::
    (List.range direntPerBlock).map fun m => .indirect (stale k m) (img.dirent (img.entry addr k) m)

/-- The slots of the directory `d`. -/
def slots (img : Image) (stale : ℕ → ℕ → Option Dinode) (d : Dinode) : List Slot :=
  (List.range ndirect).flatMap (fun j => blockSlots img (d.addrs j)) ++
    indirectSlots img stale (d.addrs ndirect)

/-- One slot of directory `inum`. -/
def checkSlot (sb : Superblock) (img : Image) (inum : ℕ) (s : Dirs) : Slot → M Dirs
  | .block addr => do
      deref addr
      pure s
  | .direct de => checkDirent sb img inum s de
  | .indirect stale de => checkDirentIndirect sb img inum stale s de

theorem checkBlock_eq (addr : ℕ) :
    checkBlock sb img inum s addr = (blockSlots img addr).foldlM (checkSlot sb img inum) s := by
  unfold checkBlock blockSlots
  split
  · rfl
  · simp only [List.foldlM_cons, List.foldlM_map, checkSlot, bind_assoc, pure_bind]

theorem checkIndirectBlock_eq {stale : ℕ → ℕ → Option Dinode} (addr : ℕ) :
    checkIndirectBlock sb img stale inum s addr =
      (indirectSlots img stale addr).foldlM (checkSlot sb img inum) s := by
  unfold checkIndirectBlock indirectSlots
  split
  · rfl
  · simp only [List.foldlM_cons, foldlM_flatMap, List.foldlM_map, checkSlot, bind_assoc, pure_bind]

/-- **The directory loops as one loop.** -/
theorem checkDir_eq_slots {stale : ℕ → ℕ → ℕ → Option Dinode} (h : d.type = tDir) :
    checkDir sb img stale inum s d = (do
      let s ← (slots img (stale inum) d).foldlM (checkSlot sb img inum) { s with curAndPreDir := 0 }
      complain (s.curAndPreDir ≠ 2) .notFormatted
      pure s) := by
  simp only [checkDir, h, ne_eq, not_true_eq_false, if_false, slots, List.foldlM_append,
    foldlM_flatMap, checkBlock_eq, checkIndirectBlock_eq, bind_assoc]

end OsProjects.Fsck
