import Aclm.Image.Elf
import Mathlib.Data.List.Sort

/-! The executable with debug sections and a list of its symbols. -/

set_option autoImplicit false

namespace Aclm.Image

open X64 (Byte leBytes)

/-- `str.encode()` -/
def utf8 (s : String) : List Byte := s.toUTF8.toList.map fun b => b.toBitVec

def uleb (n : Nat) : List Byte :=
  if n / 128 = 0 then [BitVec.ofNat 8 (n % 128)]
  else BitVec.ofNat 8 (n % 128 + 128) :: uleb (n / 128)
termination_by n
decreasing_by omega

/-- `sleb2`; the shift and the mask are those of two's complement. -/
def sleb2 (value : Int) : List Byte :=
  let byte := (value % 128).toNat
  let rest := value / 128
  if (rest = 0 ∧ byte < 64) ∨ (rest = -1 ∧ 64 ≤ byte) then [BitVec.ofNat 8 byte]
  else BitVec.ofNat 8 (byte + 128) :: sleb2 rest
termination_by value.natAbs
decreasing_by omega

/-- The row of a line number that differs from the one before; the small differences write their
opcode, and the negative ones their low byte, once more. -/
def advanceLine (dline : Int) : List Byte :=
  if dline = 0 then []
  else if -64 ≤ dline ∧ dline ≤ 63 then
    [3, 3] ++ (if dline < 0 then [BitVec.ofNat 8 ((dline % 128).toNat ||| if dline / 64 = -1 then 0x40 else 0)]
      else []) ++ [3] ++ sleb2 dline
  else [3, 3] ++ sleb2 dline

/-- One row for each entry, from a line and an offset on. -/
def lineRows : List (Nat × Int) → Int → Nat → List Byte
  | [], _, _ => []
  | (off, line) :: rest, curLine, curOff =>
    let advancePc := if curOff < off then [2] ++ uleb (off - curOff) else []
    advancePc ++ advanceLine (line - curLine) ++ [1] ++ lineRows rest line (max off curOff)

/-- `emit_ext` -/
def extended (op : Byte) (payload : List Byte) : List Byte :=
  [0] ++ uleb (1 + payload.length) ++ [op] ++ payload

def sortedByOffset (lineEntries : List (Nat × Int)) : List (Nat × Int) :=
  lineEntries.insertionSort fun a b => a.1 ≤ b.1

def codeBase : Nat := LOAD_VADDR + EHDR_SIZE + PHDR_SIZE

/-- The header fields of the line program after its length fields; `line_base` is -5. -/
def linePrologue (sourcePath : String) : List Byte :=
  [1, 1, 1, 0xFB, 14, 13] ++ [0, 1, 1, 1, 1, 0, 0, 0, 1, 0, 0, 1] ++ [0] ++ utf8 sourcePath ++ [0] ++
    uleb 0 ++ uleb 0 ++ uleb 0 ++ [0]

def debugLine (sourcePath : String) (lineEntries : List (Nat × Int)) : Except PyErr (List Byte) := do
  let prologue := linePrologue sourcePath
  let prog := extended 2 (leBytes 8 codeBase) ++ [4] ++ uleb 1 ++ lineRows (sortedByOffset lineEntries) 1 0 ++
    extended 1 []
  let headerLength ← pack 4 prologue.length
  let body := leBytes 2 4 ++ headerLength ++ prologue ++ prog
  .ok ((← pack 4 body.length) ++ body)

def debugAbbrev : List Byte :=
  uleb 1 ++ uleb 17 ++ [0x01] ++ uleb 0x03 ++ [0x08] ++ uleb 0x11 ++ [0x01] ++ uleb 0x12 ++ [0x01] ++ uleb 0x10 ++
    [0x06] ++ [0, 0] ++ [0]

def debugInfo (sourcePath : String) (codeLen : Nat) : Except PyErr (List Byte) := do
  let high ← pack 8 (codeBase + codeLen)
  let body := leBytes 2 4 ++ leBytes 4 0 ++ [8] ++ uleb 1 ++ utf8 sourcePath ++ [0] ++ leBytes 8 codeBase ++ high ++
    leBytes 4 0 ++ [0]
  .ok ((← pack 4 body.length) ++ body)

/-- `b"\x00.debug_line\x00.debug_info\x00.debug_abbrev\x00.shstrtab\x00"` -/
def shstr : List Byte :=
  [0] ++ utf8 ".debug_line" ++ [0] ++ utf8 ".debug_info" ++ [0] ++ utf8 ".debug_abbrev" ++ [0] ++ utf8 ".shstrtab" ++ [0]

/-- A section header, `"<IIQQQQIIQQ"`; the sections are not loaded. -/
def sectionHeader (name type offset size : Nat) : Except PyErr (List Byte) := do
  let offset ← pack 8 offset
  let size ← pack 8 size
  .ok (leBytes 4 name ++ leBytes 4 type ++ leBytes 8 0 ++ leBytes 8 0 ++ offset ++ size ++ leBytes 4 0 ++
    leBytes 4 0 ++ leBytes 8 1 ++ leBytes 8 0)

/-- `build_elf64_exe_debug` -/
def buildElf64ExeDebug (code data : List Byte) (sourcePath : String) (lineEntries : List (Nat × Int))
    (entryOffsetInCode : Nat) : Except PyErr (List Byte) := do
  let lineEntries := if lineEntries = [] then [(0, 1)] else lineEntries
  let line ← debugLine sourcePath lineEntries
  let info ← debugInfo sourcePath code.length
  let headerTotal := EHDR_SIZE + PHDR_SIZE
  let payloadEnd := headerTotal + code.length + data.length
  let shstrOff := align 8 payloadEnd
  let dlOff := align 8 (shstrOff + shstr.length)
  let diOff := align 8 (dlOff + line.length)
  let daOff := align 8 (diOff + info.length)
  let shoff := align 8 (daOff + debugAbbrev.length)
  -- The names stand at 1, 13, 25 and 39 in the string table.
  let sections := [← sectionHeader 0 0 0 0, ← sectionHeader 1 1 dlOff line.length,
    ← sectionHeader 13 1 diOff info.length, ← sectionHeader 25 1 daOff debugAbbrev.length,
    ← sectionHeader 39 3 shstrOff shstr.length]
  let ehdr ← ehdr64 ⟨LOAD_VADDR + headerTotal + entryOffsetInCode, shoff, 1, 64, 5, 4⟩
  let phdr ← phdr64 7 0 LOAD_VADDR payloadEnd
  let blob := ehdr ++ phdr ++ code ++ data
  let blob := padTo shstrOff 0 blob ++ shstr
  let blob := padTo dlOff 0 blob ++ line
  let blob := padTo diOff 0 blob ++ info
  let blob := padTo daOff 0 blob ++ debugAbbrev
  .ok (padTo shoff 0 blob ++ sections.flatten)

/-- One line of the symbol list. -/
def symbolLine (s : String × Nat) : List Byte :=
  utf8 (s.1 ++ "=0x" ++ String.ofList (Nat.toDigits 16 s.2) ++ "\n")

/-- `build_elf64_with_symtab` -/
def buildElf64WithSymtab (code data : List Byte) (symbols : List (String × Nat)) (entryOffsetInCode : Nat) :
    Except PyErr (List Byte) := do
  let entries := (0, 1) :: (symbols.take 20).map fun s => (s.2, 1)
  let base ← buildElf64ExeDebug code data "source.aclm" entries entryOffsetInCode
  .ok (base ++ utf8 "\n.symtab\n# ACLM_SYMBOL_TABLE_MARK\n" ++ (symbols.map symbolLine).flatten)

end Aclm.Image
