import Vdbg.Annotations

/-!
# The image

The bytes that are disassembled. `disassemble` seeks in the file of the executable to the virtual
address of a function and reads there, while the loader maps the file by the program headers. The
bytes are those of the function exactly where the file has, at an offset that is the address, what
is mapped at the address (`disassemble_right_iff`).
-/

namespace Vdbg

/-- A program header of type `PT_LOAD`. -/
structure Segment where
  offset : BitVec 64
  vaddr : Addr
  filesz : BitVec 64
  memsz : BitVec 64
deriving DecidableEq, Repr

/-- An executable: its file, what of it is loaded, and the table of its functions. The content of a
segment lies in the file, and in the segment. -/
structure Executable where
  file : List Byte
  segments : List Segment
  functions : List FuncEntry
  in_file : ∀ s ∈ segments, s.offset.toNat + s.filesz.toNat ≤ file.length
  in_memory : ∀ s ∈ segments, s.filesz.toNat ≤ s.memsz.toNat

namespace Segment

variable (s : Segment) (a : Addr)

/-- The address is one of the segment. -/
def covers : Bool := s.vaddr.toNat ≤ a.toNat && a.toNat < s.vaddr.toNat + s.memsz.toNat

/-- The byte of the segment at an address: one of the file, or a zero behind them. -/
def byteAt (file : List Byte) : Byte :=
  let i := a.toNat - s.vaddr.toNat
  if i < s.filesz.toNat then file.getD (s.offset.toNat + i) 0 else 0

end Segment

namespace Executable

variable (exe : Executable)

/-- What the loader maps at an address. A later segment is mapped over an earlier one. -/
def loaded (a : Addr) : Option Byte :=
  (exe.segments.reverse.find? (·.covers a)).map fun s => s.byteAt a exe.file

/-- Where `fseek` leaves the file: an offset that is negative as a `long` is refused. -/
def seek (a : Addr) : ℕ := if a.msb then 0 else a.toNat

/-- The buffer that `disassemble` hands to `cs_disasm`: what `fread` reads, and behind the end of
the file what `malloc` left there. -/
def disassemble (f : FuncEntry) : List (Option Byte) :=
  let bytes := (exe.file.drop (seek f.addr)).take f.size.toNat
  bytes.map some ++ List.replicate (f.size.toNat - bytes.length) none

/-- The buffer has the bytes that the loader maps at the function, and nothing that was not read. -/
def Right (f : FuncEntry) : Prop :=
  (exe.disassemble f).length = f.size.toNat ∧ ∀ i < f.size.toNat,
    ∃ b, exe.loaded (f.addr + BitVec.ofNat 64 i) = some b ∧ (exe.disassemble f)[i]? = some (some b)

variable {exe} {f : FuncEntry}

theorem length_disassemble : (exe.disassemble f).length = f.size.toNat := by
  unfold disassemble
  simp only [List.length_append, List.length_map, List.length_replicate, List.length_take]
  omega

/-- The buffer has the bytes of the file from there on, as far as the file has them. -/
theorem disassemble_getElem? {i : ℕ} (hi : i < f.size.toNat) :
    (exe.disassemble f)[i]? = some exe.file[seek f.addr + i]? := by
  have hlength : ((exe.file.drop (seek f.addr)).take f.size.toNat).length =
      min f.size.toNat (exe.file.length - seek f.addr) := by
    rw [List.length_take, List.length_drop]
  unfold disassemble
  dsimp only
  rcases Nat.lt_or_ge (seek f.addr + i) exe.file.length with hlt | hge
  · rw [List.getElem?_append_left (by rw [List.length_map, hlength]; omega), List.getElem?_map,
      List.getElem?_take_of_lt hi, List.getElem?_drop, List.getElem?_eq_getElem hlt]
    rfl
  · rw [List.getElem?_append_right (by rw [List.length_map, hlength]; omega),
      List.getElem?_replicate, if_pos (by rw [List.length_map, hlength]; omega),
      List.getElem?_eq_none hge]

/-- What is disassembled is right exactly when the file holds, at the offset that is the address of
the function, every byte that is mapped there. -/
theorem disassemble_right_iff (exe : Executable) (f : FuncEntry) :
    exe.Right f ↔ ∀ i < f.size.toNat, seek f.addr + i < exe.file.length ∧
      exe.loaded (f.addr + BitVec.ofNat 64 i) = exe.file[seek f.addr + i]? := by
  unfold Right
  rw [and_iff_right length_disassemble]
  refine forall₂_congr fun i hi => ?_
  rw [disassemble_getElem? hi]
  constructor
  · rintro ⟨b, hloaded, hbyte⟩
    have hfile := Option.some.inj hbyte
    rw [hloaded, hfile]
    exact ⟨(List.getElem?_eq_some_iff.mp hfile).1, rfl⟩
  · rintro ⟨hlt, hloaded⟩
    rw [List.getElem?_eq_getElem hlt] at hloaded ⊢
    exact ⟨_, hloaded, rfl⟩

/-! ## Segments at their own address -/

/-- Where one segment covers an address, its byte is mapped. -/
theorem loaded_of_covers {s : Segment} {a : Addr} (hs : s ∈ exe.segments)
    (hcovers : s.covers a = true) (honly : ∀ s' ∈ exe.segments, s'.covers a = true → s' = s) :
    exe.loaded a = some (s.byteAt a exe.file) := by
  unfold loaded
  cases hfind : exe.segments.reverse.find? (·.covers a) with
  | none =>
    have hnone := List.find?_eq_none.mp hfind s (List.mem_reverse.mpr hs)
    exact absurd hcovers hnone
  | some s' =>
    have hmem := List.mem_reverse.mp (List.mem_of_find?_eq_some hfind)
    have hcovers' : s'.covers a = true := by simpa using List.find?_some hfind
    rw [honly s' hmem hcovers']
    rfl

/-- A function in a segment that is loaded at the address of its offset is disassembled right. -/
theorem right_of_offset_eq {s : Segment} (hs : s ∈ exe.segments) (hoffset : s.offset = s.vaddr)
    (honly : ∀ s' ∈ exe.segments, ∀ a, s.covers a = true → s'.covers a = true → s' = s)
    (hspace : s.vaddr.toNat + s.memsz.toNat ≤ 2 ^ 64) (hstart : s.vaddr.toNat ≤ f.addr.toNat)
    (hend : f.addr.toNat + f.size.toNat ≤ s.vaddr.toNat + s.filesz.toNat)
    (hsigned : f.addr.msb = false) : exe.Right f := by
  have hfile := exe.in_file s hs
  have hmemory := exe.in_memory s hs
  have hseek : seek f.addr = f.addr.toNat := by
    unfold seek
    rw [hsigned]
    rfl
  rw [hoffset] at hfile
  refine (disassemble_right_iff exe f).mpr fun i hi => ?_
  have ha : (f.addr + BitVec.ofNat 64 i).toNat = f.addr.toNat + i := by
    rw [BitVec.toNat_add, BitVec.toNat_ofNat]
    omega
  have hcovers : s.covers (f.addr + BitVec.ofNat 64 i) = true := by
    unfold Segment.covers
    rw [ha, Bool.and_eq_true, decide_eq_true_eq, decide_eq_true_eq]
    omega
  have hlt : f.addr.toNat + i < exe.file.length := by omega
  rw [hseek, loaded_of_covers hs hcovers fun s' hs' => honly s' hs' _ hcovers]
  refine ⟨hlt, ?_⟩
  have hoff : s.vaddr.toNat + (f.addr.toNat + i - s.vaddr.toNat) = f.addr.toNat + i := by omega
  unfold Segment.byteAt
  dsimp only
  rw [ha, if_pos (by omega), hoffset, hoff, List.getElem?_eq_getElem hlt,
    List.getD_eq_getElem?_getD, List.getElem?_eq_getElem hlt, Option.getD_some]

/-- An executable that is linked at a fixed address, with its headers in the first page and a `ret`
as its code in the second one. -/
def fixed : Executable where
  file := [0x7f, 0x45, 0x4c, 0x46] ++ List.replicate 0xffc 0 ++ [0xc3]
  segments := [⟨0, 0x400000, 0x1000, 0x1000⟩, ⟨0x1000, 0x401000, 1, 1⟩]
  functions := [⟨"f".toList, 0x401000, 1⟩]
  in_file := by decide +kernel
  in_memory := by decide

/-- Its function is loaded from the file, and disassembled from behind the end of it. -/
theorem fixed_not_right : ∃ f ∈ fixed.functions, fixed.loaded f.addr = some 0xc3 ∧
    fixed.disassemble f = [none] ∧ ¬fixed.Right f := by
  have hread : fixed.disassemble ⟨"f".toList, 0x401000, 1⟩ = [none] := by decide +kernel
  refine ⟨_, List.mem_cons_self, by decide +kernel, hread, fun h => ?_⟩
  obtain ⟨b, -, hbyte⟩ := h.2 0 (by decide)
  rw [hread] at hbyte
  cases hbyte

end Executable

end Vdbg
