import Aclm.Image.Elf

/-! The boot image: a Multiboot header, the way into long mode, and the 64-bit payload. -/

set_option autoImplicit false

namespace Aclm.Image

open X64 (Byte leBytes)

def LOAD_ADDR : Nat := 0x100000
def HEADER_TOTAL : Nat := 52 + 32

def MULTIBOOT_MAGIC : Nat := 0x1BADB002
def MULTIBOOT_FLAGS : Nat := 0x00000003
def MULTIBOOT_CHECKSUM : Nat := 2 ^ 32 - (MULTIBOOT_MAGIC + MULTIBOOT_FLAGS)

/-- `build_multiboot_header` -/
def buildMultibootHeader : List Byte :=
  leBytes 4 MULTIBOOT_MAGIC ++ leBytes 4 MULTIBOOT_FLAGS ++ leBytes 4 MULTIBOOT_CHECKSUM

/-- The bytes of one descriptor, `"<HHBBBB"`, without base and with the full limit. -/
def descriptor (access flags : Byte) : List Byte := [0xFF, 0xFF, 0, 0, 0, access, flags, 0]

/-- `build_gdt` -/
def buildGdt : List Byte :=
  List.replicate 8 0 ++ descriptor 0x9A 0xA0 ++ descriptor 0x92 0xC0 ++ descriptor 0xFA 0xA0 ++ descriptor 0xF2 0xC0

/-- `_u32`: the low 32 bits. -/
def u32 (v : Nat) : List Byte := leBytes 4 v

/-- A table with one entry; the entry is the frame of the next table, present and writable. -/
def tablePage (phys : Nat) : List Byte := leBytes 8 (phys / 4096 * 4096 ||| 0x03) ++ List.replicate 4088 0

/-- `patch_page_tables` of three blank pages. -/
def pageTables (pdptPhys pdPhys : Nat) : List Byte :=
  tablePage pdptPhys ++ tablePage pdPhys ++ (List.range 512).flatMap fun i => leBytes 8 (i * 0x200000 ||| 0x83)

/-- `build_trampoline32` -/
def buildTrampoline32 (pml4Phys gdtrPhys longStubPhys : Nat) : List Byte :=
  [0xFA] ++ [0xBC] ++ u32 0x90000 ++ [0xB8] ++ u32 gdtrPhys ++ [0x0F, 0x01, 0x10] ++ [0x0F, 0x20, 0xE0] ++
    [0x83, 0xC8, 0x20] ++ [0x0F, 0x22, 0xE0] ++ [0xB8] ++ u32 pml4Phys ++ [0x0F, 0x22, 0xD8] ++ [0xB9] ++
    u32 0xC0000080 ++ [0x0F, 0x32] ++ [0x0D] ++ u32 0x100 ++ [0x0F, 0x30] ++ [0x0F, 0x20, 0xC0] ++ [0x0D] ++
    u32 0x80000001 ++ [0x0F, 0x22, 0xC0] ++ [0xEA] ++ u32 longStubPhys ++ leBytes 2 0x0008

/-- `build_long_mode_stub64` -/
def buildLongModeStub64 (kmainPhys : Nat) : Except PyErr (List Byte) := do
  let kmain ← pack 8 kmainPhys
  .ok ([0x66, 0xB8, 0x10, 0x00] ++ [0x8E, 0xD8] ++ [0x8E, 0xC0] ++ [0x8E, 0xD0] ++ [0x48, 0xBC] ++ leBytes 8 0x90000 ++
    [0x48, 0xB8] ++ kmain ++ [0xFF, 0xE0])

/-- Where the parts of the boot image stand behind the ELF headers. -/
structure BootLayout where
  pml4Off : Nat
  gdtrOff : Nat
  gdtOff : Nat
  stubOff : Nat
  userOff : Nat
  deriving DecidableEq, Repr

/-- The first offset from `off` on at which `base + offset` is a multiple of `a`. -/
def alignAt (base a off : Nat) : Nat := align a (base + off) - base

/-- The offsets that `build_long_mode_kernel` counts; the stub has 32 bytes. -/
def bootLayout (codeStart : Nat) : BootLayout :=
  let pml4Off := alignAt codeStart 4096 (buildMultibootHeader.length + (buildTrampoline32 0x2000 0x3000 0x100000).length)
  let gdtrOff := pml4Off + 4096 + 4096 + 4096
  let gdtOff := alignAt codeStart 8 (gdtrOff + 6)
  let stubOff := alignAt codeStart 16 (gdtOff + buildGdt.length)
  let userOff := alignAt codeStart 16 (stubOff + 32)
  ⟨pml4Off, gdtrOff, gdtOff, stubOff, userOff⟩

/-- What follows the last byte of code and data: `hlt` and a jump to itself. -/
def STOP : List Byte := [0xF4, 0xEB, 0xFE]

/-- `build_long_mode_kernel` -/
def buildLongModeKernel (user64 data : List Byte) (loadAddr : Nat) : Except PyErr (List Byte) := do
  let codeStart := loadAddr + HEADER_TOTAL
  let l := bootLayout codeStart
  let pml4Phys := codeStart + l.pml4Off
  let tramp := buildTrampoline32 pml4Phys (codeStart + l.gdtrOff) (codeStart + l.stubOff)
  let stub ← buildLongModeStub64 (codeStart + l.userOff)
  let pages := pageTables (pml4Phys + 4096) (pml4Phys + 8192)
  let gdtr6 := leBytes 2 (buildGdt.length - 1) ++ leBytes 4 (codeStart + l.gdtOff)
  let blob := buildMultibootHeader ++ tramp
  let blob := padTo l.pml4Off 0 blob ++ pages
  let blob := padTo l.gdtrOff 0 blob ++ gdtr6
  let blob := padTo l.gdtOff 0 blob ++ buildGdt
  let blob := padTo l.stubOff 0x90 blob ++ stub
  let blob := padTo l.userOff 0x90 blob ++ user64
  buildElf32Multiboot (blob ++ data ++ STOP) [] buildMultibootHeader.length loadAddr

end Aclm.Image
