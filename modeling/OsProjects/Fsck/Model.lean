import Mathlib.Data.Nat.Notation
import OsProjects.Foundation.Loop
import OsProjects.Fsck.Image

/-!
# The file system checker

`main` of `xfsck.c`, from the mapped image to `exit`.  A run either returns normally, which is
`exit(0)`, or stops: with a message and exit code 1, by an access outside the image or an array, or
never, in a walk to the root that repeats itself.

Three things the C program leaves open are parameters: the first contents of the four malloc'ed
counter arrays (`Arrays`), and what the uninitialised pointer `ptr` of the indirect directory blocks
points to (`stale`).
-/

namespace OsProjects.Fsck

/-- The messages on `stderr`. -/
inductive Diag
  | badInode
  | badDirect
  | markedFree
  | directTwice
  | badIndirect
  | indirectTwice
  | notFormatted
  | inaccessible
  | parentMismatch
  | dirTwice
  | referredFree
  | notFound
  | badReferenceCount
  | superblock
  | bitmapUnused
  | badSize
  deriving DecidableEq

def Diag.text : Diag → String
  | badInode => "ERROR: bad inode.\n"
  | badDirect => "ERROR: bad direct address in inode.\n"
  | markedFree => "ERROR: address used by inode but marked free in bitmap.\n"
  | directTwice => "ERROR: direct address used more than once.\n"
  | badIndirect => "ERROR: bad indirect address in inode.\n"
  | indirectTwice => "ERROR: indirect address used more than once.\n"
  | notFormatted => "ERROR: directory not properly formatted.\n"
  | inaccessible => "ERROR: inaccessible directory exists\n"
  | parentMismatch => "ERROR: parent directory mismatch\n"
  | dirTwice => "ERROR: directory appears more than once in file system.\n"
  | referredFree => "ERROR: inode referred to in directory but marked free.\n"
  | notFound => "ERROR: inode marked used but not found in a directory.\n"
  | badReferenceCount => "ERROR: bad reference count for file.\n"
  | superblock => "ERROR: superblock is corrupted.\n"
  | bitmapUnused => "ERROR: bitmap marks block in use but it is not in use.\n"
  | badSize => "ERROR: incorrect file size in inode.\n"

/-- The ends of a run other than `exit(0)`. -/
inductive Stop
  /-- a message and `exit(1)` -/
  | exit (d : Diag)
  /-- `exit(exit_code)`, for a malformed directory reported earlier -/
  | exitCode
  /-- an access outside the image or outside an array -/
  | outOfBounds
  /-- a walk to the root that never ends -/
  | endless
  deriving DecidableEq

/-- A part of the program that may end the run. -/
abbrev M := Except Stop

/-- `if (c) { fprintf(stderr, ...); exit(1); }` -/
def complain (c : Prop) [Decidable c] (d : Diag) : M Unit :=
  if c then .error (.exit d) else .ok ()

/-- An access that is in bounds if `c`. -/
def access (c : Prop) [Decidable c] : M Unit := if c then .ok () else .error .outOfBounds

/-- A block of the image is looked at. -/
def deref (addr : ℕ) : M Unit := access (blockOff addr + bsize ≤ imgSize)

/-- `dip + inum` is looked at. -/
def getInode (img : Image) (inum : ℕ) : M Dinode := do
  access (2 * bsize + 64 * inum + 64 ≤ imgSize)
  pure (img.dinode inum)

/-! ### Block addresses -/

/-- A block address stored in an inode or in its indirect block. -/
inductive Ref
  | direct (addr : ℕ)
  | indirect (addr : ℕ)
  | entry (addr : ℕ)
  deriving DecidableEq

/-- The block number of a reference. -/
def Ref.addr : Ref → ℕ
  | .direct addr | .indirect addr | .entry addr => addr

/-- The two marker arrays and the counters of the address checks. -/
structure Counts where
  directAddrArray : ℕ → Bool
  indirectAddrArray : ℕ → Bool
  countDbInode : ℕ
  usedDatablock : ℕ
  badsize : Bool

/-- `addr < sb->size - sb->nblocks || addr > sb->size - 1` -/
def OutOfRange (sb : Superblock) (addr : ℕ) : Prop :=
  addr < usub sb.size sb.nblocks ∨ usub sb.size 1 < addr

instance (sb : Superblock) (addr : ℕ) : Decidable (OutOfRange sb addr) :=
  inferInstanceAs (Decidable (_ ∨ _))

/-- `(bit_block[(addr/BIT)%(BSIZE/BIT)] >> (addr % BIT)) & 1` -/
def bitTest (img : Image) (addr : ℕ) : Bool := img.bitmapBit (addr / 32 % (bsize / 32)) (addr % 32)

/-- The mark of an indirect block. -/
def markIndirect (sb : Superblock) (s : Counts) (addr : ℕ) : M Counts :=
  if addr = 0 then pure s
  else do
    access (addr < sb.size)
    complain (s.indirectAddrArray addr = true) .indirectTwice
    pure { s with
      indirectAddrArray := Function.update s.indirectAddrArray addr true
      countDbInode := s.countDbInode + 1 }

/-- One turn of the loops over the addresses of an in-use inode. -/
def checkRef (sb : Superblock) (img : Image) (s : Counts) : Ref → M Counts
  | .direct addr =>
      if addr = 0 then pure s
      else do
        complain (OutOfRange sb addr) .badDirect
        complain (bitTest img addr = false) .markedFree
        access (addr < sb.size)
        complain (s.directAddrArray addr = true) .directTwice
        pure { s with
          directAddrArray := Function.update s.directAddrArray addr true
          countDbInode := s.countDbInode + 1
          usedDatablock := s.usedDatablock + 1 }
  | .indirect addr => do
      let s ← markIndirect sb s addr
      deref addr
      pure s
  | .entry addr =>
      if addr = 0 then pure s
      else do
        complain (OutOfRange sb addr) .badIndirect
        complain (bitTest img addr = false) .markedFree
        access (addr < sb.size)
        complain (s.indirectAddrArray addr = true) .indirectTwice
        pure { s with
          indirectAddrArray := Function.update s.indirectAddrArray addr true
          countDbInode := s.countDbInode + 1
          usedDatablock := s.usedDatablock + 1 }

/-- The addresses of an inode in the order of the loops.  Without an indirect block the entries are
those of block 0. -/
def refs (img : Image) (d : Dinode) : List Ref :=
  (List.range ndirect).map (fun j => .direct (d.addrs j)) ++
    .indirect (d.addrs ndirect) :: (img.entries (d.addrs ndirect)).map .entry

/-- `type == T_FILE && size != 0 && (size <= (used - 1)*BSIZE || size > used*BSIZE)` -/
def BadSize (d : Dinode) (used : ℕ) : Prop :=
  d.type = tFile ∧ d.size ≠ 0 ∧ (d.size ≤ usub (used * bsize) bsize ∨ used * bsize < d.size)

instance (d : Dinode) (used : ℕ) : Decidable (BadSize d used) :=
  inferInstanceAs (Decidable (_ ∧ _ ∧ _))

/-- The block `if (cur_inode->type != 0)`. -/
def checkAddrs (sb : Superblock) (img : Image) (s : Counts) (d : Dinode) : M Counts :=
  if d.type = 0 then pure s
  else do
    let s ← (refs img d).foldlM (checkRef sb img) { s with usedDatablock := 0 }
    pure (if BadSize d s.usedDatablock then { s with badsize := true } else s)

/-! ### Directories -/

/-- The malloc'ed arrays. -/
structure Arrays where
  indexOfDirectory : ℕ → ℤ
  dirPointedInodes : ℕ → ℤ
  fileBlockArr : ℕ → ℤ
  dirBlockArr : ℕ → ℤ

/-- The arrays and counters of the directory checks; `curAndPreDir` counts the `"."` and `".."` of
the directory being checked. -/
structure Dirs extends Arrays where
  numOfDirectory : ℤ
  curAndPreDir : ℕ
  exitCode : Bool

/-- The loop over one block of the pointer `copied_ptr`, which is inode `c`; the flag is `find_root`
set by this loop. -/
def walkDirents (start : ℕ) : List Dirent → ℕ → M (ℕ × Bool)
  | [], c => pure (c, false)
  | de :: des, c =>
      if de.isDotDot then
        if de.inum = 1 then pure (c, true)
        else do
          access (de.inum < 200)
          complain (de.inum = start) .inaccessible
          walkDirents start des de.inum
      else walkDirents start des c

/-- One block of a pass. -/
def walkBlock (img : Image) (start addr : ℕ) (w : ℕ × Bool) : M (ℕ × Bool) := do
  deref addr
  let r ← walkDirents start (img.dirents addr) w.1
  pure (r.1, w.2 || r.2)

/-- The body of `while (find_root == 0)`: the blocks of the inode the pointer is at, also when it
moves on during the pass. -/
def walkPass (img : Image) (start c : ℕ) : M (ℕ × Bool) := do
  let w ← (List.range ndirect).foldlM (fun w n => do
    let d ← getInode img w.1
    walkBlock img start (d.addrs n) w) (c, false)
  let d ← getInode img w.1
  deref (d.addrs ndirect)
  (img.entries (d.addrs ndirect)).foldlM (fun w addr => walkBlock img start addr w) w

/-- `while (find_root == 0)`, for at most `n` passes. -/
def walkLoop (img : Image) (start : ℕ) : ℕ → ℕ → M Unit
  | 0, _ => .error .endless
  | n + 1, c => do
      let w ← walkPass img start c
      if w.2 then pure () else walkLoop img start n w.1

/-- The passes after which a walk that has not ended has come to a pointer a second time:
`inode_bits` has 200 elements. -/
def maxPasses : ℕ := 202

/-- The walk from the parent `c` of directory `start` to the root. -/
def walkToRoot (img : Image) (start c : ℕ) : M Unit := do
  access (start < 200)
  walkLoop img start maxPasses c

/-- `find_back_ptr`: some entry of the blocks of `d`, which include block 0 for every address that
is 0, has number `inum`. -/
def backPtr (img : Image) (inum : ℕ) (d : Dinode) : M Bool := do
  let found ← (List.range ndirect).foldlM (fun found n => do
    deref (d.addrs n)
    pure (found || (img.dirents (d.addrs n)).any (·.inum = inum))) false
  deref (d.addrs ndirect)
  (img.entries (d.addrs ndirect)).foldlM (fun found addr => do
    deref addr
    pure (found || (img.dirents addr).any (·.inum = inum))) found

/-- `a[dir2->inum]++` -/
def bump (sb : Superblock) (a : ℕ → ℤ) (de : Dirent) : M (ℕ → ℤ) := do
  access (de.inum < sb.ninodes)
  pure (Function.update a de.inum (a de.inum + 1))

/-- The same for an entry that is neither `"."` nor `".."`. -/
def bumpNamed (sb : Superblock) (a : ℕ → ℤ) (de : Dirent) : M (ℕ → ℤ) :=
  if de.isNamed then bump sb a de else pure a

/-- `file_block_arr[dir2->inum]++` -/
def countFile (sb : Superblock) (s : Dirs) (de : Dirent) : M Dirs := do
  let a ← bump sb s.fileBlockArr de
  pure { s with fileBlockArr := a }

/-- The test and the count of a directory's appearances. -/
def countDir (sb : Superblock) (s : Dirs) (de : Dirent) : M Dirs := do
  access (de.inum < sb.ninodes)
  complain (1 ≤ s.dirBlockArr de.inum ∧ de.isNamed = true) .dirTwice
  let a ← bumpNamed sb s.dirBlockArr de
  pure { s with dirBlockArr := a }

/-- The walk to the root for a `".."` that does not name the root. -/
def checkWalk (img : Image) (inum : ℕ) (de : Dirent) : M Unit :=
  if de.isDotDot = true ∧ de.inum ≠ 1 then walkToRoot img inum de.inum else pure ()

/-- The search for the back pointer of a `".."`. -/
def checkBackPtr (img : Image) (inum : ℕ) (de : Dirent) (ptr : Dinode) : M Unit :=
  if de.isDotDot then do
    let found ← backPtr img inum ptr
    complain (found = false) .parentMismatch
  else pure ()

/-- `dirPointedInodes[dir2->inum]++` and the unused record of the directory number. -/
def record (sb : Superblock) (s : Dirs) (de : Dirent) (num : ℤ) : M Dirs := do
  let a ← bumpNamed sb s.dirPointedInodes de
  access (de.inum < sb.ninodes)
  pure { s with
    dirPointedInodes := a
    indexOfDirectory := Function.update s.indexOfDirectory de.inum num
    numOfDirectory := s.numOfDirectory + 1 }

/-- The cases of `ptr->type` for an entry of a direct block of directory `inum`. -/
def checkTarget (sb : Superblock) (img : Image) (inum : ℕ) (s : Dirs) (de : Dirent) (ptr : Dinode) :
    M Dirs :=
  if ptr.type = tFile then countFile sb s de
  else if ptr.type = tDir then do
    complain (de.isDot = true ∧ de.inum ≠ inum) .notFormatted
    checkWalk img inum de
    checkBackPtr img inum de ptr
    countDir sb s de
  else pure s

/-- The block `if(dir2->inum != 0)` of a direct block. -/
def checkInum (sb : Superblock) (img : Image) (inum : ℕ) (s : Dirs) (de : Dirent) : M Dirs :=
  if de.inum = 0 then pure s
  else do
    let ptr ← getInode img de.inum
    let s ← checkTarget sb img inum s de ptr
    complain (ptr.type = 0) .referredFree
    record sb s de s.numOfDirectory

/-- An entry of a direct block of directory `inum`. -/
def checkDirent (sb : Superblock) (img : Image) (inum : ℕ) (s : Dirs) (de : Dirent) : M Dirs := do
  let s ← checkInum sb img inum s de
  pure (if de.isNamed then s
    else { s with
      curAndPreDir := s.curAndPreDir + 1
      exitCode := s.exitCode || (de.isDot && de.inum ≠ inum) })

/-- The cases of `ptr->type` for an entry of an indirect block: the search for the back pointer
comes before the walk. -/
def checkTargetIndirect (sb : Superblock) (img : Image) (inum : ℕ) (s : Dirs) (de : Dirent)
    (ptr : Dinode) : M Dirs :=
  if ptr.type = tFile then countFile sb s de
  else if ptr.type = tDir then do
    checkBackPtr img inum de ptr
    checkWalk img inum de
    countDir sb s de
  else pure s

/-- The block `if(dir2->inum != 0)` of an indirect block; `stale` is what the uninitialised pointer
`ptr` reads, `none` for an address outside the program. -/
def checkInumIndirect (sb : Superblock) (img : Image) (inum : ℕ) (stale : Option Dinode) (s : Dirs)
    (de : Dirent) : M Dirs :=
  if de.inum = 0 then pure s
  else
    match stale with
    | none => .error .outOfBounds
    | some ptr => do
        let s ← checkTargetIndirect sb img inum s de ptr
        complain (ptr.type = 0) .referredFree
        record sb s de (s.numOfDirectory + 1)

/-- An entry of an indirect block of directory `inum`. -/
def checkDirentIndirect (sb : Superblock) (img : Image) (inum : ℕ) (stale : Option Dinode)
    (s : Dirs) (de : Dirent) : M Dirs := do
  complain (de.isDot = true ∧ de.inum ≠ inum) .notFormatted
  checkInumIndirect sb img inum stale
    (if de.isNamed then s else { s with curAndPreDir := s.curAndPreDir + 1 }) de

/-- A direct block of directory `inum`. -/
def checkBlock (sb : Superblock) (img : Image) (inum : ℕ) (s : Dirs) (addr : ℕ) : M Dirs :=
  if addr = 0 then pure s
  else do
    deref addr
    (img.dirents addr).foldlM (checkDirent sb img inum) s

/-- The indirect block of directory `inum`; its zero entries stand for block 0. -/
def checkIndirectBlock (sb : Superblock) (img : Image) (stale : ℕ → ℕ → Option Dinode) (inum : ℕ)
    (s : Dirs) (addr : ℕ) : M Dirs :=
  if addr = 0 then pure s
  else do
    deref addr
    (List.range nindirect).foldlM (fun s k => do
      deref (img.entry addr k)
      (List.range direntPerBlock).foldlM (fun s m =>
        checkDirentIndirect sb img inum (stale k m) s (img.dirent (img.entry addr k) m)) s) s

/-- The block `if (cur_inode->type == T_DIR)`; `stale` gives the values of the uninitialised
pointer. -/
def checkDir (sb : Superblock) (img : Image) (stale : ℕ → ℕ → ℕ → Option Dinode) (inum : ℕ)
    (s : Dirs) (d : Dinode) : M Dirs :=
  if d.type ≠ tDir then pure s
  else do
    let s ← (List.range ndirect).foldlM (fun s j => checkBlock sb img inum s (d.addrs j))
      { s with curAndPreDir := 0 }
    let s ← checkIndirectBlock sb img (stale inum) inum s (d.addrs ndirect)
    complain (s.curAndPreDir ≠ 2) .notFormatted
    pure s

/-! ### The program -/

/-- The variables of `main`. -/
structure State where
  counts : Counts
  dirs : Dirs

/-- One turn of the first loop over the inodes. -/
def checkInode (sb : Superblock) (img : Image) (stale : ℕ → ℕ → ℕ → Option Dinode) (s : State)
    (inum : ℕ) : M State := do
  let d ← getInode img inum
  complain (d.type ≠ 0 ∧ d.type ≠ tFile ∧ d.type ≠ tDir ∧ d.type ≠ tDev) .badInode
  let counts ← checkAddrs sb img s.counts d
  let dirs ← checkDir sb img stale inum s.dirs d
  pure ⟨counts, dirs⟩

/-- `coun_db_bitmap` -/
def countDbBitmap (sb : Superblock) (img : Image) : ℕ :=
  (List.range (8 * bsize)).countP fun i =>
    decide (sb.size - sb.nblocks ≤ i ∧ i < sb.size) && img.bitmapBit (i / 32) (i % 32)

/-- One turn of the second loop over the inodes. -/
def checkReferences (img : Image) (a : Arrays) (inum : ℕ) : M Unit := do
  let d ← getInode img inum
  complain (inum ≠ 0 ∧ inum ≠ 1 ∧ a.dirPointedInodes inum < 1 ∧ d.type ≠ 0) .notFound
  complain (d.type = tFile ∧ a.fileBlockArr inum ≠ d.nlink) .badReferenceCount
  complain (d.type = tDir ∧ d.nlink ≠ 1) .dirTwice

/-- The state before the loops. -/
def State.init (a : Arrays) : State where
  counts := ⟨fun _ => false, fun _ => false, 0, 0, false⟩
  dirs := { a with numOfDirectory := 0, curAndPreDir := 0, exitCode := false }

/-- `main`; the result `ok` is `exit(0)`. -/
def main (a : Arrays) (stale : ℕ → ℕ → ℕ → Option Dinode) (img : Image) : M Unit := do
  let sb := img.superblock
  let s ← (List.range sb.ninodes).foldlM (checkInode sb img stale) (.init a)
  (List.range sb.ninodes).foldlM (fun _ inum => checkReferences img s.dirs.toArrays inum) ()
  complain (sb.size < 1022) .superblock
  complain (s.counts.countDbInode < countDbBitmap sb img) .bitmapUnused
  complain (s.counts.badsize = true) .badSize
  if s.dirs.exitCode then .error .exitCode else pure ()

end OsProjects.Fsck
