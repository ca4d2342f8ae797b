import OsProjects.Foundation.Bytes
import OsProjects.Foundation.Lines
import OsProjects.Foundation.Loop

/-!
# The archiver and the unarchiver

`tar` is the main function of `wis-tar.c` and `untar` that of `wis-untar.c`, on a host with a
signed `char` and an eight-byte `long`.  A stream is the list of its remaining bytes.  The files on
disk do not change while they are archived, so `stat` finds the length of what `fgetc` reads.

The unarchiver reads into two variables that nothing initialises.  `Locals` holds what they contain
before a read, and a short `fread` leaves their remaining bytes as they were.
-/

namespace OsProjects.Tar

abbrev Name := List UInt8
abbrev Content := List UInt8

/-- The ways in which a run ends other than by returning `0`. -/
inductive Error
  /-- Too few arguments. -/
  | usage
  /-- `fopen` returned `NULL`. -/
  | cannotOpen
  /-- `stat` failed. -/
  | noSize
  /-- The archive is read while it is being written. -/
  | overwritten
  /-- The buffer of the file name holds no terminating NUL. -/
  | overread
  /-- The `int` that counts the bytes of a file overflows. -/
  | overflow
deriving DecidableEq, Repr

def EOF : ℤ := -1

/-- The next byte of a stream as an `unsigned char`, or `EOF`. -/
def fgetc : List UInt8 → ℤ × List UInt8
  | [] => (EOF, [])
  | b :: bs => (b.toNat, bs)

/-- The byte that `fputc` writes for a `char`. -/
def fputc (ch : Int8) : UInt8 := ch.toUInt8

/-- What a program may ask about the directory: its archive and the names it may create. -/
structure Host where
  tarname : Name
  canCreate : Name → Bool
  canCreate_tarname : canCreate tarname = true

/-! ### Archiving -/

section Archiving

/-- The hundred bytes of a file name: cut off, or filled with zeros. -/
def nameField (filename : Name) : List UInt8 :=
  if filename.length ≥ 100 then filename.take 100
  else filename ++ List.replicate (100 - filename.length) 0

/-- `while ((ch = fgetc(f)) != EOF) fputc(ch, f_tar)`, with `ch` a `char`. -/
def copy : List UInt8 → List UInt8
  | [] => []
  | b :: bs =>
    let ch := Int8.ofInt (fgetc (b :: bs)).1
    if ch.toInt ≠ EOF then fputc ch :: copy (fgetc (b :: bs)).2 else []

def stat (fs : Name → Option Content) (filename : Name) : Option ℕ :=
  (fs filename).map List.length

/-- One turn of the loop over the arguments: what it appends to the archive. -/
def tarEntry (h : Host) (fs : Name → Option Content) (filename : Name) :
    Except Error (List UInt8) :=
  if filename = h.tarname then .error .overwritten
  else match fs filename with
    | none => .error .cannotOpen
    | some content =>
      match stat fs filename with
      | none => .error .noSize
      | some size => .ok (nameField filename ++ Bytes.leBytes 8 size ++ copy content)

def tar (h : Host) (fs : Name → Option Content) : List Name → Except Error (List UInt8)
  | [] => .error .usage
  | name :: names =>
    if h.canCreate h.tarname then do
      let entries ← (name :: names).mapM (tarEntry h fs)
      .ok entries.flatten
    else .error .cannotOpen

end Archiving

/-! ### Unarchiving -/

section Unarchiving

/-- What `fread` leaves in a buffer when it reads `got`. -/
def fread (got buffer : List UInt8) : List UInt8 :=
  got ++ buffer.drop got.length

theorem length_fread {got buffer : List UInt8} (h : got.length ≤ buffer.length) :
    (fread got buffer).length = buffer.length := by
  simp [fread, h]

/-- The uninitialised variables of the unarchiver.  `size_buffer` belongs to one turn of the loop,
`filename_buffer` to all of them. -/
structure Locals where
  filename_buffer : List UInt8
  size_buffer : List UInt8
  length_filename_buffer : filename_buffer.length = 100
  length_size_buffer : size_buffer.length = 8

/-- `fread(filename_buffer, 1, 100, f_tar)`. -/
def Locals.readName (l : Locals) (f_tar : List UInt8) : Locals where
  filename_buffer := fread (f_tar.take 100) l.filename_buffer
  size_buffer := l.size_buffer
  length_filename_buffer := by
    rw [length_fread (by simp [l.length_filename_buffer]), l.length_filename_buffer]
  length_size_buffer := l.length_size_buffer

/-- The C string at the start of a buffer, unless no NUL ends it. -/
def cString (buffer : List UInt8) : Except Error Name :=
  if 0 ∈ buffer then .ok (cstr buffer) else .error .overread

/-- The value of a signed `long` in memory. -/
def long (bytes : List UInt8) : ℤ :=
  if Bytes.leNat bytes < 2 ^ 63 then Bytes.leNat bytes else Bytes.leNat bytes - 2 ^ 64

/-- `n` times `ch = fgetc(f_tar); fputc(ch, out_file)`: what is written and what is left. -/
def extract : ℕ → List UInt8 → List UInt8 × List UInt8
  | 0, f_tar => ([], f_tar)
  | n + 1, f_tar =>
    let ch := Int8.ofInt (fgetc f_tar).1
    let r := extract n (fgetc f_tar).2
    (fputc ch :: r.1, r.2)

/-- `fopen(filename_buffer, "w")`. -/
def fopenOut (h : Host) (name : Name) : Except Error Unit :=
  if name = h.tarname then .error .overwritten
  else if h.canCreate name then .ok () else .error .cannotOpen

/-- The bound of the loop `for (int i = 0; i < size_buffer; i++)`. -/
def turns (size_buffer : List UInt8) : Except Error ℕ :=
  if long size_buffer < 2 ^ 31 then .ok (long size_buffer).toNat else .error .overflow

/-- One turn of the loop over the archive: the file written and the rest of the archive. -/
def untarEntry (h : Host) (l : Locals) (f_tar : List UInt8) :
    Except Error ((Name × Content) × List UInt8) := do
  let name ← cString (l.readName f_tar).filename_buffer
  fopenOut h name
  let n ← turns (fread ((f_tar.drop 100).take 8) l.size_buffer)
  let out := extract n (f_tar.drop 108)
  .ok ((name, out.1), out.2)

theorem length_extract (n : ℕ) (f_tar : List UInt8) :
    (extract n f_tar).2.length ≤ f_tar.length := by
  induction n generalizing f_tar with
  | zero => exact le_rfl
  | succ n ih =>
    apply (ih _).trans
    cases f_tar <;> simp [fgetc]

theorem untarEntry_ok {h : Host} {l : Locals} {f_tar : List UInt8}
    {r : (Name × Content) × List UInt8} :
    untarEntry h l f_tar = .ok r ↔
      ∃ name n, cString (l.readName f_tar).filename_buffer = .ok name ∧
        fopenOut h name = .ok () ∧
        turns (fread ((f_tar.drop 100).take 8) l.size_buffer) = .ok n ∧
        ((name, (extract n (f_tar.drop 108)).1), (extract n (f_tar.drop 108)).2) = r := by
  simp only [untarEntry, bind_ok, Except.ok.injEq]
  constructor
  · rintro ⟨name, hname, ⟨⟩, hopen, n, hn, hr⟩
    exact ⟨name, n, hname, hopen, hn, hr⟩
  · rintro ⟨name, n, hname, hopen, hn, hr⟩
    exact ⟨name, hname, (), hopen, n, hn, hr⟩

theorem length_untarEntry {h : Host} {l : Locals} {f_tar : List UInt8}
    {r : (Name × Content) × List UInt8} (hr : untarEntry h l f_tar = .ok r) (hne : f_tar ≠ []) :
    r.2.length < f_tar.length := by
  obtain ⟨name, n, -, -, -, rfl⟩ := untarEntry_ok.1 hr
  have hpos : 0 < f_tar.length := List.length_pos_iff.2 hne
  have hle := length_extract n (f_tar.drop 108)
  rw [List.length_drop] at hle
  show (extract n (f_tar.drop 108)).2.length < f_tar.length
  omega

/-- The files that the unarchiver writes, in order. -/
def untar (h : Host) (l : Locals) (f_tar : List UInt8) :
    Except Error (List (Name × Content)) :=
  if hne : f_tar = [] then .ok []
  else
    match hr : untarEntry h l f_tar with
    | .error e => .error e
    | .ok (file, rest) => do
      have := length_untarEntry hr hne
      let files ← untar h (l.readName f_tar) rest
      .ok (file :: files)
termination_by f_tar.length

end Unarchiving

/-- The directory after files have been written to it, the last one written under a name winning. -/
def written (files : List (Name × Content)) : Name → Option Content :=
  files.foldl (fun dir f => Function.update dir f.1 (some f.2)) fun _ => none

end OsProjects.Tar
