import OsProjects.Foundation.Bytes

/-!
# File system images

The on-disk format of `include/fs.h` as `xfsck.c` reads it: an image of 1024 blocks, with the
superblock in block 1, the inode table from block 2, the bitmap in block 28 and the data blocks from
block 29.

`img + BSIZE * addr` is a byte offset of type `uint`, so it wraps at `2^32` (`blockOff`).
-/

namespace OsProjects.Fsck

/-! ### Constants -/

def bsize : ℕ := 512
def ndirect : ℕ := 12
def nindirect : ℕ := 128
def direntPerBlock : ℕ := 32
def bitmapBlock : ℕ := 28
def tDir : ℕ := 1
def tFile : ℕ := 2
def tDev : ℕ := 3

/-- The bytes of an image of 1024 blocks. -/
def imgSize : ℕ := 1024 * bsize

/-- The contents of the mapped image. -/
abbrev Image := Bytes

/-- `struct superblock`. -/
structure Superblock where
  size : ℕ
  nblocks : ℕ
  ninodes : ℕ
  deriving DecidableEq

/-- The superblock `mkfs` writes. -/
def mkfsSuperblock : Superblock := ⟨1024, 995, 200⟩

/-- `struct dinode`; the device numbers are not read. -/
structure Dinode where
  type : ℕ
  nlink : ℤ
  size : ℕ
  addrs : ℕ → ℕ

/-- `struct dirent`. -/
structure Dirent where
  inum : ℕ
  name : ℕ → UInt8

/-- `strcmp(name, s) == 0` for a constant `s`. -/
def strEq (name : ℕ → UInt8) : List UInt8 → Bool
  | [] => name 0 = 0
  | c :: s => name 0 = c && strEq (fun n => name (n + 1)) s

/-- `strcmp(name, ".") == 0` -/
def Dirent.isDot (de : Dirent) : Bool := strEq de.name [46]

/-- `strcmp(name, "..") == 0` -/
def Dirent.isDotDot (de : Dirent) : Bool := strEq de.name [46, 46]

/-- An entry that is neither `"."` nor `".."`. -/
def Dirent.isNamed (de : Dirent) : Bool := !de.isDot && !de.isDotDot

/-- A 16-bit number as a `short`. -/
def toShort (x : ℕ) : ℤ := if x < 2 ^ 15 then x else x - 2 ^ 16

/-- Difference of two `uint`s. -/
def usub (x y : ℕ) : ℕ := (x + 2 ^ 32 - y) % 2 ^ 32

/-- The offset `BSIZE * addr`. -/
def blockOff (addr : ℕ) : ℕ := (bsize * addr) % 2 ^ 32

namespace Image

variable (img : Image)

/-- `(struct superblock *) (img_ptr + BSIZE)` -/
def superblock : Superblock :=
  ⟨img.word 4 bsize, img.word 4 (bsize + 4), img.word 4 (bsize + 8)⟩

/-- `((struct dinode *) (img_ptr + 2*BSIZE))[inum]` -/
def dinode (inum : ℕ) : Dinode where
  type := img.word 2 (2 * bsize + 64 * inum)
  nlink := toShort (img.word 2 (2 * bsize + 64 * inum + 6))
  size := img.word 4 (2 * bsize + 64 * inum + 8)
  addrs j := img.word 4 (2 * bsize + 64 * inum + 12 + 4 * j)

/-- `((struct dirent *) (img_ptr + BSIZE * addr))[k]` -/
def dirent (addr k : ℕ) : Dirent where
  inum := img.word 2 (blockOff addr + 16 * k)
  name n := img (blockOff addr + 16 * k + 2 + n)

/-- The entries of a directory block. -/
def dirents (addr : ℕ) : List Dirent := (List.range direntPerBlock).map (img.dirent addr)

/-- `((uint *) (img_ptr + BSIZE * addr))[k]` -/
def entry (addr k : ℕ) : ℕ := img.word 4 (blockOff addr + 4 * k)

/-- The words of an indirect block. -/
def entries (addr : ℕ) : List ℕ := (List.range nindirect).map (img.entry addr)

/-- Bit `shift` of word `n` of the bitmap block. -/
def bitmapBit (n shift : ℕ) : Bool := (img.word 4 (bsize * bitmapBlock + 4 * n)).testBit shift

/-- The bit of block `b` in the encoding of `mkfs` and the kernel: bit `b%8` of byte `b/8`. -/
def marked (b : ℕ) : Bool := (img (bsize * bitmapBlock + b / 8)).toNat.testBit (b % 8)

theorem bitmapBit_eq_marked {img : Image} {n shift : ℕ} (h : shift < 32) :
    img.bitmapBit n shift = img.marked (32 * n + shift) := by
  rw [bitmapBit, marked, Bytes.testBit_word (by omega)]
  have hdiv : (32 * n + shift) / 8 = 4 * n + shift / 8 := by omega
  have hmod : (32 * n + shift) % 8 = shift % 8 := by omega
  rw [hdiv, hmod, Nat.add_assoc]

end Image

/-! ### Encoding -/

/-- The bytes of a superblock. -/
def Superblock.bytes (sb : Superblock) : List UInt8 :=
  [sb.size, sb.nblocks, sb.ninodes].flatMap (Bytes.leBytes 4)

/-- The bytes of an inode whose device numbers are 0. -/
def dinodeBytes (type nlink size : ℕ) (addrs : List ℕ) : List UInt8 :=
  [type, 0, 0, nlink].flatMap (Bytes.leBytes 2) ++ (size :: addrs).flatMap (Bytes.leBytes 4)

/-- The bytes of a directory entry; `strncpy` pads the name with zeros or cuts it off. -/
def direntBytes (inum : ℕ) (name : List UInt8) : List UInt8 :=
  Bytes.leBytes 2 inum ++ (name ++ List.replicate 14 0).take 14

end OsProjects.Fsck
