import OsProjects.Foundation.Records
import OsProjects.Fsck.Image

/-!
# Building an image

`tools/mkfs.c`: an image of 1024 blocks with the files of a host directory.  Inodes and blocks are
handed out in order (`ialloc`, `freeblock++`), `iappend` adds bytes to the end of a file, `addDir`
copies a directory and `balloc` marks the blocks that were used.

The result `none` is a failed `assert`, or `exit(1)` where a sector behind the end of the image is
read (`rsect`).  A sector that has been read and is changed and written is a write to a part of it
(`put`).  The calls that read the host's files do not fail.
-/

namespace OsProjects.Mkfs

open Fsck

/-- `MAXFILE` -/
def maxfile : ℕ := ndirect + nindirect

/-- `IPB` -/
def ipb : ℕ := 8

/-- `ROOTINO` -/
def rootino : ℕ := 1

/-- The globals and the image file. -/
structure Fs where
  img : Image
  freeblock : ℕ
  usedblocks : ℕ
  freeinode : ℕ

/-! ### Sectors -/

/-- `rsect`: the image file has 1024 sectors. -/
def rsect (sec : ℕ) : Option Unit := if sec < 1024 then some () else none

/-- The bytes from offset `o` on are written, with the rest of their sector. -/
def put (o : ℕ) (bs : List UInt8) (s : Fs) : Fs := { s with img := s.img.write o bs }

/-- `mkfs`: sectors of zeros, and the superblock. -/
def mkfs (nblocks ninodes size : ℕ) : Option Fs :=
  let bitblocks := size / (512 * 8) + 1
  let usedblocks := ninodes / ipb + 3 + bitblocks
  if nblocks + usedblocks = size then
    some {
      img := Bytes.write (fun _ => 0) bsize (Superblock.bytes ⟨size, nblocks, ninodes⟩)
      freeblock := usedblocks
      usedblocks := usedblocks
      freeinode := 1 }
  else none

/-! ### Inodes -/

/-- `struct dinode` with the device numbers. -/
structure Inode extends Dinode where
  major : ℕ
  minor : ℕ

/-- `i2b` -/
def i2b (inum : ℕ) : ℕ := inum / ipb + 2

/-- The offset of an inode. -/
def inodeOff (inum : ℕ) : ℕ := bsize * i2b inum + 64 * (inum % ipb)

/-- The inode at an offset. -/
def inodeAt (img : Image) (o : ℕ) : Inode where
  type := img.word 2 o
  major := img.word 2 (o + 2)
  minor := img.word 2 (o + 4)
  nlink := toShort (img.word 2 (o + 6))
  size := img.word 4 (o + 8)
  addrs j := img.word 4 (o + 12 + 4 * j)

/-- The bytes of an inode. -/
def bytes (ip : Inode) : List UInt8 :=
  [ip.type, ip.major, ip.minor, (ip.nlink % 2 ^ 16).toNat].flatMap (Bytes.leBytes 2) ++
    (ip.size :: (List.range (ndirect + 1)).map ip.addrs).flatMap (Bytes.leBytes 4)

/-- `rinode` -/
def rinode (inum : ℕ) (s : Fs) : Option Inode := do
  rsect (i2b inum)
  pure (inodeAt s.img (inodeOff inum))

/-- `winode` -/
def winode (inum : ℕ) (ip : Inode) (s : Fs) : Option Fs := do
  rsect (i2b inum)
  pure (put (inodeOff inum) (bytes ip) s)

/-- `ialloc` -/
def ialloc (type : ℕ) (s : Fs) : Option (ℕ × Fs) := do
  let inum := s.freeinode
  let din : Inode := ⟨⟨type, 1, 0, fun _ => 0⟩, 0, 0⟩
  let s ← winode inum din { s with freeinode := inum + 1 }
  pure (inum, s)

/-! ### Contents -/

/-- The offset of word `k` of block `b`. -/
def wordOff (b k : ℕ) : ℕ := bsize * b + 4 * k

/-- `freeblock++`, `usedblocks++` -/
def takeBlock (s : Fs) : Fs :=
  { s with freeblock := s.freeblock + 1, usedblocks := s.usedblocks + 1 }

/-- `din.addrs[j] = x` -/
def setAddr (din : Dinode) (j x : ℕ) : Dinode :=
  { din with addrs := Function.update din.addrs j x }

/-- The address `din.addrs[j]` is `freeblock++` if it was 0. -/
def needAddr (j : ℕ) (s : Fs) (din : Dinode) : Fs × Dinode :=
  if din.addrs j = 0 then (takeBlock s, setAddr din j s.freeblock) else (s, din)

/-- The same for word `k` of the indirect block `b`, which has been read. -/
def needEntry (b k : ℕ) (s : Fs) : Fs :=
  if s.img.word 4 (wordOff b k) = 0 then
    takeBlock (put (wordOff b k) (Bytes.leBytes 4 s.freeblock) s)
  else s

/-- The block `x` for block `fbn` of the file. -/
def blockFor (fbn : ℕ) (s : Fs) (din : Dinode) : Option (ℕ × Fs × Dinode) :=
  if fbn < ndirect then
    let (s, din) := needAddr fbn s din
    some (din.addrs fbn, s, din)
  else do
    let (s, din) := needAddr ndirect s din
    let b := din.addrs ndirect
    rsect b
    let s := needEntry b (fbn - ndirect) s
    some (s.img.word 4 (wordOff b (fbn - ndirect)), s, din)

/-- `while(n > 0)`: the rest `p` goes into the file from offset `off` on. -/
def appendLoop (s : Fs) (din : Dinode) (off : ℕ) (p : List UInt8) : Option (Fs × Dinode × ℕ) :=
  if p = [] then some (s, din, off)
  else do
    let fbn := off / bsize
    if fbn < maxfile then
      let (x, s, din) ← blockFor fbn s din
      let n₁ := min p.length ((fbn + 1) * bsize - off)
      rsect x
      appendLoop (put (bsize * x + (off - fbn * bsize)) (p.take n₁) s) din (off + n₁) (p.drop n₁)
    else none
termination_by p.length
decreasing_by
  rename_i hp _
  have hpos : 0 < p.length := List.length_pos_iff.2 hp
  have hoff : off < (off / bsize + 1) * bsize := by
    unfold bsize
    omega
  rw [List.length_drop]
  omega

/-- `iappend` -/
def iappend (inum : ℕ) (p : List UInt8) (s : Fs) : Option Fs := do
  let ip ← rinode inum s
  let (s, din, off) ← appendLoop s ip.toDinode ip.size p
  winode inum { ip with toDinode := { din with size := off } } s

/-! ### Directories -/

/-- The name of a file on the host. -/
structure Name where
  bytes : List UInt8
  nul : 0 ∉ bytes

/-- `strcmp(entry->d_name, ".") == 0 || strcmp(entry->d_name, "..") == 0` -/
def Name.skipped (name : Name) : Prop := name.bytes = [46] ∨ name.bytes = [46, 46]

instance (name : Name) : Decidable name.skipped := inferInstanceAs (Decidable (_ ∨ _))

/-- A directory of the host: its entries in the order of `readdir`.  The contents of a file are the
pieces that `read` returns. -/
inductive HostDir where
  | nil
  | file (name : Name) (reads : List (List UInt8)) (rest : HostDir)
  | dir (name : Name) (sub rest : HostDir)

/-- The size of a directory is a multiple of the block size above that of its entries. -/
def fixSize (inum : ℕ) (s : Fs) : Option Fs := do
  let ip ← rinode inum s
  winode inum { ip with size := (ip.size / bsize + 1) * bsize } s

/-- The entries `"."` and `".."` of `add_dir`. -/
def addDots (cur parent : ℕ) (s : Fs) : Option Fs := do
  let s ← iappend cur (direntBytes cur [46]) s
  iappend cur (direntBytes parent [46, 46]) s

/-- The loop of `add_dir`, with the call for each subdirectory. -/
def addEntries : HostDir → ℕ → Fs → Option Fs
  | .nil, _, s => some s
  | .file name reads rest, cur, s =>
      if name.skipped then addEntries rest cur s
      else do
        let (child, s) ← ialloc tFile s
        let s ← reads.foldlM (fun s buf => iappend child buf s) s
        let s ← iappend cur (direntBytes child name.bytes) s
        addEntries rest cur s
  | .dir name sub rest, cur, s =>
      if name.skipped then addEntries rest cur s
      else do
        let (child, s) ← ialloc tDir s
        let s ← addDots child cur s
        let s ← addEntries sub child s
        let s ← fixSize child s
        let s ← iappend cur (direntBytes child name.bytes) s
        addEntries rest cur s

/-- `add_dir` -/
def addDir (t : HostDir) (cur parent : ℕ) (s : Fs) : Option Fs := do
  let s ← addDots cur parent s
  let s ← addEntries t cur s
  fixSize cur s

/-! ### The program -/

/-- The bitmap block: the bits of the first `used` blocks. -/
def bitmap (used : ℕ) : ℕ → UInt8 :=
  (List.range used).foldl (fun buf i =>
    Function.update buf (i / 8) (buf (i / 8) ||| 1 <<< UInt8.ofNat (i % 8))) fun _ => 0

/-- `balloc` -/
def balloc (used : ℕ) (s : Fs) : Option Fs :=
  if used < bsize * 8 then
    some (put (bsize * bitmapBlock) ((List.range bsize).map (bitmap used)) s)
  else none

/-- `main` -/
def main (t : HostDir) : Option Fs := do
  let s ← mkfs 995 200 1024
  let (root, s) ← ialloc tDir s
  if root = rootino then
    let s ← addDir t root root s
    balloc s.usedblocks s
  else none

end OsProjects.Mkfs
