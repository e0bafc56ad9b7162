import Aclm.Python
import Aclm.X64.Elf

/-! The writers of executable files for Linux, and the wrapper of the boot image. -/

set_option autoImplicit false

namespace Aclm.Image

open X64 (Byte leBytes)

def PAGE : Nat := 0x1000
def LOAD_VADDR : Nat := 0x400000
def EHDR_SIZE : Nat := 64
def PHDR_SIZE : Nat := 56

/-- One field of `struct.pack`, `n` bytes wide and unsigned. -/
def pack (n v : Nat) : Except PyErr (List Byte) :=
  if v < 256 ^ n then .ok (leBytes n v) else .error (.structError "argument out of range")

/-- `(n + a - 1) & ~(a - 1)` for a power of two. -/
def align (a n : Nat) : Nat := (n + a - 1) / a * a

/-- The fields of a file header that differ between the writers. -/
structure Ehdr where
  entry : Nat
  shoff : Nat
  phnum : Nat
  shentsize : Nat
  shnum : Nat
  shstrndx : Nat

/-- `"<16sHHIQQQIHHHHHH"` -/
def ehdr64 (h : Ehdr) : Except PyErr (List Byte) := do
  let entry ← pack 8 h.entry
  let shoff ← pack 8 h.shoff
  .ok ([0x7F, 0x45, 0x4C, 0x46, 2, 1, 1, 0] ++ List.replicate 8 0 ++ leBytes 2 2 ++ leBytes 2 0x3E ++ leBytes 4 1 ++
    entry ++ leBytes 8 EHDR_SIZE ++ shoff ++ leBytes 4 0 ++ leBytes 2 EHDR_SIZE ++ leBytes 2 PHDR_SIZE ++
    leBytes 2 h.phnum ++ leBytes 2 h.shentsize ++ leBytes 2 h.shnum ++ leBytes 2 h.shstrndx)

/-- `"<IIQQQQQQ"`: a `PT_LOAD` segment with as many bytes in the file as in memory. -/
def phdr64 (flags offset vaddr size : Nat) : Except PyErr (List Byte) := do
  let offset ← pack 8 offset
  let vaddr ← pack 8 vaddr
  let size ← pack 8 size
  .ok (leBytes 4 1 ++ leBytes 4 flags ++ offset ++ vaddr ++ vaddr ++ size ++ size ++ leBytes 8 PAGE)

/-- `while len(blob) < n: blob.append(b)` -/
def padTo (n : Nat) (b : Byte) (blob : List Byte) : List Byte := blob ++ List.replicate (n - blob.length) b

/-- `build_elf64_exe` -/
def buildElf64Exe (code data : List Byte) (entryOffsetInCode : Nat) : Except PyErr (List Byte) := do
  let headerTotal := EHDR_SIZE + PHDR_SIZE
  let codeVaddr := LOAD_VADDR + headerTotal
  let filesz := headerTotal + code.length + data.length
  let ehdr ← ehdr64 ⟨codeVaddr + entryOffsetInCode, 0, 1, 0, 0, 0⟩
  let phdr ← phdr64 7 0 LOAD_VADDR filesz
  .ok (ehdr ++ phdr ++ code ++ data)

/-- `wx_code_data_file_offsets` -/
def wxCodeDataFileOffsets (codeLen : Nat) : Nat × Nat :=
  let header := EHDR_SIZE + 2 * PHDR_SIZE
  let codeOff := align PAGE header
  (codeOff, align PAGE (codeOff + codeLen))

/-- `build_elf64_exe_wx` -/
def buildElf64ExeWx (code data : List Byte) (entryOffsetInCode : Nat) : Except PyErr (List Byte) := do
  let header := EHDR_SIZE + 2 * PHDR_SIZE
  let codeOff := align PAGE header
  let codeVaddr := LOAD_VADDR + codeOff
  let dataOff := align PAGE (codeOff + code.length)
  let dataVaddr := LOAD_VADDR + dataOff
  let ehdr ← ehdr64 ⟨codeVaddr + entryOffsetInCode, 0, 2, 0, 0, 0⟩
  let phdr0 ← phdr64 5 codeOff codeVaddr code.length
  let phdr1 ← phdr64 6 dataOff dataVaddr data.length
  .ok (padTo dataOff 0 (padTo codeOff 0 (ehdr ++ phdr0 ++ phdr1) ++ code) ++ data)

/-- `build_elf32_multiboot` -/
def buildElf32Multiboot (code data : List Byte) (entryOffsetInCode loadAddr : Nat) : Except PyErr (List Byte) := do
  let headerTotal := 52 + 32
  let codeVaddr := loadAddr + headerTotal
  let filesz := headerTotal + code.length + data.length
  let entry ← pack 4 (codeVaddr + entryOffsetInCode)
  let load ← pack 4 loadAddr
  let size ← pack 4 filesz
  let ehdr := [0x7F, 0x45, 0x4C, 0x46, 1, 1, 1, 0] ++ List.replicate 8 0 ++ leBytes 2 2 ++ leBytes 2 0x03 ++
    leBytes 4 1 ++ entry ++ leBytes 4 52 ++ leBytes 4 0 ++ leBytes 4 0 ++ leBytes 2 52 ++ leBytes 2 32 ++
    leBytes 2 1 ++ leBytes 2 0 ++ leBytes 2 0 ++ leBytes 2 0
  let phdr := leBytes 4 1 ++ leBytes 4 0 ++ load ++ load ++ size ++ size ++ leBytes 4 7 ++ leBytes 4 PAGE
  .ok (ehdr ++ phdr ++ code ++ data)

end Aclm.Image
