import OsProjects.Mkfs.Store

/-!
# The file system of the kernel

`kernel/fs.c` on the image that `mkfs` makes: blocks (`balloc`, `bfree`), inodes (`ialloc`,
`iupdate`, `bmap`, `itrunc`), their contents (`readi`, `writei`), directories (`dirlookup`,
`dirlink`) and paths (`namex`).

A function gets the image and, where the caller has locked an inode, the copy in memory; the result
`none` is a panic.  `bread` and `bwrite` are reads and writes of the image.  They never fail:
neither `bio.c` nor `ide.c` compares a sector with the size of the disk, so that a sector behind its
end is here one like the others.  An inode whose type is a device has no contents here: its reads
and writes are those of the device.
-/

namespace OsProjects.Kernel

open Fsck Mkfs

/-! ### Blocks -/

/-- `BPB` -/
def bpb : ℕ := 8 * bsize

/-- `BBLOCK` -/
def bblock (b ninodes : ℕ) : ℕ := b / bpb + ninodes / ipb + 3

/-- The offset of the byte `bp->data[bi/8]` of block `b`. -/
def bitByte (sb : Superblock) (b : ℕ) : ℕ := bsize * bblock b sb.ninodes + b % bpb / 8

/-- `1 << (bi % 8)` -/
def mask (b : ℕ) : UInt8 := 1 <<< UInt8.ofNat (b % bpb % 8)

/-- `(bp->data[bi/8] & m) == 0` -/
def isFree (sb : Superblock) (img : Image) (b : ℕ) : Bool := img (bitByte sb b) &&& mask b = 0

/-- The first free bit of a block of the bitmap. -/
@[irreducible] def freeBit (sb : Superblock) (img : Image) (b : ℕ) : Option ℕ :=
  (List.range bpb).find? fun bi => isFree sb img (b + bi)

/-- The loop of `balloc` over the blocks of the bitmap. -/
def ballocLoop (sb : Superblock) (img : Image) : List ℕ → Option ℕ
  | [] => none
  | b :: bs =>
      match freeBit sb img b with
      | some bi => some (b + bi)
      | none => ballocLoop sb img bs

/-- `balloc`: the bits behind that of the last block of the disk are tried as well. -/
def balloc (img : Image) : Option (ℕ × Image) := do
  let sb := img.superblock
  let b ← ballocLoop sb img ((List.range ((sb.size + bpb - 1) / bpb)).map (bpb * ·))
  let o := bitByte sb b
  pure (b, img.write o [img o ||| mask b])

/-- `bzero` -/
def bzero (b : ℕ) (img : Image) : Image := img.write (bsize * b) (List.replicate bsize 0)

/-- `bfree` -/
def bfree (b : ℕ) (img : Image) : Option Image :=
  let img := bzero b img
  let sb := img.superblock
  let o := bitByte sb b
  if isFree sb img b then none else some (img.write o [img o &&& ~~~mask b])

/-! ### Inodes -/

/-- `iupdate` -/
def iupdate (inum : ℕ) (ip : Inode) (img : Image) : Image := img.write (inodeOff inum) (bytes ip)

/-- What `ilock` reads. -/
def ilock (inum : ℕ) (img : Image) : Option Inode :=
  let ip := inodeAt img (inodeOff inum)
  if ip.type = 0 then none else some ip

/-- `ialloc` -/
def ialloc (type : ℕ) (img : Image) : Option (ℕ × Image) := do
  let inum ← ((List.range img.superblock.ninodes).drop 1).find? fun inum =>
    (inodeAt img (inodeOff inum)).type = 0
  pure (inum, iupdate inum ⟨⟨type, 0, 0, fun _ => 0⟩, 0, 0⟩ img)

/-- `ip->addrs[j] = x` -/
def withAddr (ip : Inode) (j x : ℕ) : Inode := { ip with toDinode := setAddr ip.toDinode j x }

/-- The address `ip->addrs[j]`, allocated if it is 0. -/
def bmapAddr (ip : Inode) (j : ℕ) (img : Image) : Option (Inode × Image) :=
  if ip.addrs j = 0 then do
    let (x, img) ← balloc img
    pure (withAddr ip j x, img)
  else pure (ip, img)

/-- The same for word `k` of the indirect block `b`. -/
def bmapEntry (b k : ℕ) (img : Image) : Option (ℕ × Image) :=
  if img.word 4 (wordOff b k) = 0 then do
    let (x, img) ← balloc img
    pure (x, img.write (wordOff b k) (Bytes.leBytes 4 x))
  else pure (img.word 4 (wordOff b k), img)

/-- `bmap` -/
def bmap (ip : Inode) (bn : ℕ) (img : Image) : Option (ℕ × Inode × Image) :=
  if bn < ndirect then do
    let (ip, img) ← bmapAddr ip bn img
    pure (ip.addrs bn, ip, img)
  else if bn - ndirect < nindirect then do
    let (ip, img) ← bmapAddr ip ndirect img
    let (x, img) ← bmapEntry (ip.addrs ndirect) (bn - ndirect) img
    pure (x, ip, img)
  else none

/-- The body of the first loop of `itrunc`. -/
def truncAddr : Inode × Image → ℕ → Option (Inode × Image)
  | (ip, img), i =>
      if ip.addrs i = 0 then some (ip, img)
      else do
        let img ← bfree (ip.addrs i) img
        pure (withAddr ip i 0, img)

/-- The indirect block of `itrunc` and what its words `a` refer to. -/
def truncIndirect (ip : Inode) (img : Image) : Option (Inode × Image) :=
  if ip.addrs ndirect = 0 then some (ip, img)
  else do
    let b := ip.addrs ndirect
    let a := fun j => img.word 4 (wordOff b j)
    let img ← (List.range nindirect).foldlM (fun img j =>
      if a j = 0 then some img else bfree (a j) img) img
    let img ← bfree b img
    pure (withAddr ip ndirect 0, img)

/-- `itrunc` -/
def itrunc (inum : ℕ) (ip : Inode) (img : Image) : Option (Inode × Image) := do
  let (ip, img) ← (List.range ndirect).foldlM truncAddr (ip, img)
  let (ip, img) ← truncIndirect ip img
  let ip := { ip with size := 0 }
  pure (ip, iupdate inum ip img)

/-- `iput` of the last reference to an inode whose copy has been read: one without links is
freed. -/
def iput (inum : ℕ) (ip : Inode) (img : Image) : Option Image :=
  if ip.nlink = 0 then do
    let (ip, img) ← itrunc inum ip img
    pure (iupdate inum { ip with type := 0 } img)
  else some img

/-! ### Contents -/

theorem step_pos {n off : ℕ} (hn : n ≠ 0) : n - min n (bsize - off % bsize) < n := by
  have hlt : off % bsize < bsize := Nat.mod_lt _ (by decide)
  omega

/-- `for(tot=0; tot<n; tot+=m, off+=m, dst+=m)` -/
def readLoop (ip : Inode) (off n : ℕ) (img : Image) : Option (List UInt8 × Inode × Image) :=
  if n = 0 then some ([], ip, img)
  else do
    let (x, ip, img) ← bmap ip (off / bsize) img
    let m := min n (bsize - off % bsize)
    let (dst, ip', img') ← readLoop ip (off + m) (n - m) img
    pure ((List.range m).map (fun r => img (bsize * x + off % bsize + r)) ++ dst, ip', img')
termination_by n
decreasing_by exact step_pos ‹_›

/-- `readi`: the bytes, or -1. -/
def readi (ip : Inode) (off n : ℕ) (img : Image) : Option (Option (List UInt8) × Inode × Image) :=
  if ip.size < off ∨ (off + n) % 2 ^ 32 < off then some (none, ip, img)
  else do
    let n := if ip.size < (off + n) % 2 ^ 32 then ip.size - off else n
    let (dst, ip, img) ← readLoop ip off n img
    pure (some dst, ip, img)

/-- `for(tot=0; tot<n; tot+=m, off+=m, src+=m)` -/
def writeLoop (ip : Inode) (src : List UInt8) (off n : ℕ) (img : Image) : Option (Inode × Image) :=
  if n = 0 then some (ip, img)
  else do
    let (x, ip, img) ← bmap ip (off / bsize) img
    let m := min n (bsize - off % bsize)
    writeLoop ip (src.drop m) (off + m) (n - m) (img.write (bsize * x + off % bsize) (src.take m))
termination_by n
decreasing_by exact step_pos ‹_›

/-- `writei`: the number of bytes, or -1. -/
def writei (inum : ℕ) (ip : Inode) (src : List UInt8) (off : ℕ) (img : Image) :
    Option (Option ℕ × Inode × Image) :=
  if ip.size < off ∨ (off + src.length) % 2 ^ 32 < off then some (none, ip, img)
  else do
    let n := if maxfile * bsize < (off + src.length) % 2 ^ 32 then usub (maxfile * bsize) off
      else src.length
    let (ip, img) ← writeLoop ip src off n img
    if 0 < n ∧ ip.size < off + n then
      let ip := { ip with size := off + n }
      pure (some n, ip, iupdate inum ip img)
    else pure (some n, ip, img)

/-! ### Directories -/

/-- `strncmp` -/
def strncmp (p q : ℕ → UInt8) : ℕ → ℤ
  | 0 => 0
  | n + 1 =>
      if p 0 ≠ 0 ∧ p 0 = q 0 then strncmp (fun k => p (k + 1)) (fun k => q (k + 1)) n
      else (p 0).toNat - (q 0).toNat

/-- `DIRSIZ` -/
def dirsiz : ℕ := 14

/-- `namecmp` -/
def namecmp (s t : ℕ → UInt8) : ℤ := strncmp s t dirsiz

/-- The buffer that holds a name and the NUL behind it. -/
def nameBuffer (name : List UInt8) (k : ℕ) : UInt8 := name.getD k 0

/-- Entry `k` of block `b` of a directory. -/
def direntAt (img : Image) (b k : ℕ) : Dirent :=
  ⟨img.word 2 (bsize * b + 16 * k), fun n => img (bsize * b + 16 * k + 2 + n)⟩

/-- An entry with this name. -/
def matchesName (name : List UInt8) (de : Dirent) : Bool :=
  decide (de.inum ≠ 0) && decide (namecmp (nameBuffer name) de.name = 0)

/-- The loop of `dirlookup` over the blocks of the directory: the offset and the inode number of the
entry. -/
def lookupLoop (name : List UInt8) (ip : Inode) (img : Image) :
    List ℕ → Option (Option (ℕ × ℕ) × Inode × Image)
  | [] => some (none, ip, img)
  | bn :: bns => do
      let (x, ip, img) ← bmap ip bn img
      match (List.range direntPerBlock).find? fun k => matchesName name (direntAt img x k) with
      | some k => pure (some (bsize * bn + 16 * k, (direntAt img x k).inum), ip, img)
      | none => lookupLoop name ip img bns

/-- `dirlookup` -/
def dirlookup (dp : Inode) (name : List UInt8) (img : Image) :
    Option (Option (ℕ × ℕ) × Inode × Image) :=
  if dp.type = tDir then lookupLoop name dp img (List.range (dataBlocks dp.size)) else none

/-- `readi(dp, (char*)&de, off, sizeof(de)) != sizeof(de)` is a panic. -/
def readEntry (dp : Inode) (off : ℕ) (img : Image) : Option (List UInt8 × Inode × Image) := do
  let (r, dp, img) ← readi dp off 16 img
  match r with
  | some de => if de.length = 16 then some (de, dp, img) else none
  | none => none

/-- `de.inum` of the bytes of an entry. -/
def entryInum (de : List UInt8) : ℕ := Bytes.leNat (de.take 2)

/-- The loop of `dirlink` over the entries: the offset of an empty one, or of the end. -/
def emptyLoop (dp : Inode) (img : Image) (last : ℕ) : List ℕ → Option (ℕ × Inode × Image)
  | [] => some (last, dp, img)
  | off :: offs => do
      let (de, dp, img) ← readEntry dp off img
      if entryInum de = 0 then pure (off, dp, img) else emptyLoop dp img last offs

/-- The offsets of the entries of a directory. -/
def entryOffs (size : ℕ) : List ℕ := (List.range ((size + 15) / 16)).map (16 * ·)

/-- `writei(dp, (char*)&de, off, sizeof(de)) != sizeof(de)` is a panic. -/
def writeEntry (dnum : ℕ) (dp : Inode) (off : ℕ) (de : List UInt8) (img : Image) :
    Option (Inode × Image) := do
  let (r, dp, img) ← writei dnum dp de off img
  if r = some 16 then some (dp, img) else none

/-- `dirlink` in the directory `dnum`: 0 or -1. -/
def dirlink (dnum : ℕ) (dp : Inode) (name : List UInt8) (inum : ℕ) (img : Image) :
    Option (ℤ × Inode × Image) := do
  let (r, dp, img) ← dirlookup dp name img
  match r with
  | some _ => pure (-1, dp, img)
  | none => do
      let (off, dp, img) ← emptyLoop dp img (16 * ((dp.size + 15) / 16)) (entryOffs dp.size)
      let (dp, img) ← writeEntry dnum dp off (direntBytes inum name) img
      pure (0, dp, img)

/-! ### Paths -/

/-- `'/'` -/
def slash : UInt8 := 47

/-- `skipelem`: the first element of a path, cut off at `DIRSIZ` bytes, and what follows it. -/
def skipelem (path : List UInt8) : Option (List UInt8 × List UInt8) :=
  let path := path.dropWhile (· = slash)
  if path = [] then none
  else some ((path.takeWhile (· ≠ slash)).take dirsiz,
    (path.dropWhile (· ≠ slash)).dropWhile (· = slash))

theorem skipelem_length {path name rest : List UInt8} (h : skipelem path = some (name, rest)) :
    rest.length < path.length := by
  rw [skipelem] at h
  split at h
  · cases h
  · rename_i hne
    obtain ⟨-, rfl⟩ := Prod.mk.inj (Option.some.inj h)
    obtain ⟨c, cs, hcs⟩ := List.exists_cons_of_ne_nil hne
    have hc : ¬c = slash := by
      intro hc
      have hhead := List.head_dropWhile_not (fun b : UInt8 => decide (b = slash)) hne
      simp [hcs, hc] at hhead
    have h₁ : ((path.dropWhile (· = slash)).dropWhile (· ≠ slash)).length ≤ cs.length := by
      rw [hcs, List.dropWhile_cons_of_pos (by simpa using hc)]
      exact (List.dropWhile_sublist _).length_le
    have h₂ := (List.dropWhile_sublist (l := (path.dropWhile (· = slash)).dropWhile (· ≠ slash))
      (fun b : UInt8 => decide (b = slash))).length_le
    have h₃ := (List.dropWhile_sublist (l := path) (fun b : UInt8 => decide (b = slash))).length_le
    rw [hcs, List.length_cons] at h₃
    omega

/-- The loop of `namex` from the inode `inum` on: an inode and the last name, or 0. -/
def namexLoop (parent : Bool) (img : Image) (inum : ℕ) (last path : List UInt8) :
    Option (Option (ℕ × List UInt8) × Image) :=
  match _h : skipelem path with
  | none => some (if parent then none else some (inum, last), img)
  | some (name, rest) => do
      let ip ← ilock inum img
      if ip.type ≠ tDir then some (none, img)
      else if parent ∧ rest = [] then some (some (inum, name), img)
      else do
        let (r, _, img) ← dirlookup ip name img
        match r with
        | none => some (none, img)
        | some (_, next) => namexLoop parent img next name rest
termination_by path.length
decreasing_by exact skipelem_length ‹_›

/-- `namex` for a process whose current directory is `cwd`. -/
def namex (cwd : ℕ) (path : List UInt8) (parent : Bool) (img : Image) :
    Option (Option (ℕ × List UInt8) × Image) :=
  namexLoop parent img (if path.head? = some slash then rootino else cwd) [] path

end OsProjects.Kernel
