import Aclm.X64.Word

/-! Executable files: the program headers of an ELF file, the memory they describe, and the address
at which a byte of the file is loaded. -/

set_option autoImplicit false

namespace Aclm.X64.Elf

structure Segment where
  type : Nat
  flags : Nat
  offset : Nat
  vaddr : Nat
  filesz : Nat
  memsz : Nat
  deriving DecidableEq, Repr

/-- The little-endian number in the `n` bytes at an offset. -/
def field (file : List Byte) (o n : Nat) : Nat := leValue ((file.drop o).take n)

/-- The program header at an offset of a 64-bit file. -/
def header64 (file : List Byte) (p : Nat) : Segment :=
  { type := field file p 4, flags := field file (p + 4) 4, offset := field file (p + 8) 8,
    vaddr := field file (p + 16) 8, filesz := field file (p + 32) 8, memsz := field file (p + 40) 8 }

/-- The program header at an offset of a 32-bit file. -/
def header32 (file : List Byte) (p : Nat) : Segment :=
  { type := field file p 4, flags := field file (p + 24) 4, offset := field file (p + 4) 4,
    vaddr := field file (p + 8) 4, filesz := field file (p + 16) 4, memsz := field file (p + 20) 4 }

def segments64 (file : List Byte) : List Segment :=
  (List.range (field file 56 2)).map fun i => header64 file (field file 32 8 + i * field file 54 2)

def segments32 (file : List Byte) : List Segment :=
  (List.range (field file 44 2)).map fun i => header32 file (field file 28 4 + i * field file 42 2)

/-- The `PT_LOAD` segments, by the class byte of the file. -/
def loads (file : List Byte) : List Segment :=
  let all := if field file 4 1 = 2 then segments64 file else if field file 4 1 = 1 then segments32 file else []
  all.filter (·.type = 1)

/-- Where a byte of the file, or the end of a segment's bytes, is loaded. -/
def address (file : List Byte) (o : Nat) : Option Nat :=
  ((loads file).find? fun s => s.offset ≤ o ∧ o ≤ s.offset + s.filesz).map fun s => s.vaddr + (o - s.offset)

/-- The memory image: the bytes of the segments, and zeros up to their sizes in memory. -/
def memory (file : List Byte) (a : Nat) : Option Byte :=
  ((loads file).find? fun s => s.vaddr ≤ a ∧ a < s.vaddr + s.memsz).bind fun s =>
    if a - s.vaddr < s.filesz then file[s.offset + (a - s.vaddr)]? else some 0

/-- The bytes are in memory from an address on. -/
def LoadedAt (file : List Byte) (a : Nat) (bs : List Byte) : Prop :=
  ∀ i, (inside : i < bs.length) → memory file (a + i) = some bs[i]

/-! ### Reading fields -/

section Fields

variable {xs ys : List Byte} {o n : Nat}

theorem field_skip (after : xs.length ≤ o) : field (xs ++ ys) o n = field ys (o - xs.length) n := by
  rw [field, field, List.drop_append, List.drop_eq_nil_of_le after, List.nil_append]

theorem field_within (inside : o + n ≤ xs.length) : field (xs ++ ys) o n = field xs o n := by
  rw [field, field, List.drop_append_of_le_length (by omega), List.take_append_of_le_length (by simp; omega)]

theorem field_leBytes (v : Nat) (ys : List Byte) (n : Nat) : field (leBytes n v ++ ys) 0 n = v % 256 ^ n := by
  rw [field_within (by simp), field, List.drop_zero, List.take_of_length_le (by simp), leValue_leBytes]

theorem header64_skip {p : Nat} (after : xs.length ≤ p) : header64 (xs ++ ys) p = header64 ys (p - xs.length) := by
  have further (k : Nat) : p + k - xs.length = p - xs.length + k := by omega
  simp only [header64, field_skip after, field_skip (Nat.le_add_right_of_le after), further]

theorem header32_skip {p : Nat} (after : xs.length ≤ p) : header32 (xs ++ ys) p = header32 ys (p - xs.length) := by
  have further (k : Nat) : p + k - xs.length = p - xs.length + k := by omega
  simp only [header32, field_skip after, field_skip (Nat.le_add_right_of_le after), further]

end Fields

/-- The bytes stand in the file at an offset. -/
def StandsAt (file : List Byte) (o : Nat) (bs : List Byte) : Prop := bs <+: file.drop o

theorem StandsAt.getElem {file : List Byte} {o : Nat} {bs : List Byte} (here : StandsAt file o bs) {i : Nat}
    (inside : i < bs.length) : file[o + i]? = some bs[i] := by
  obtain ⟨rest, shape⟩ := here
  rw [← List.getElem?_drop, ← shape, List.getElem?_append_left inside, List.getElem?_eq_getElem inside]

theorem StandsAt.field {file : List Byte} {o i n : Nat} {bs : List Byte} (here : StandsAt file o bs)
    (inside : i + n ≤ bs.length) : field file (o + i) n = field bs i n := by
  obtain ⟨rest, shape⟩ := here
  rw [Elf.field, ← List.drop_drop, ← shape]
  exact field_within inside

theorem StandsAt.of_append {pre bs post : List Byte} {o : Nat} (size : pre.length = o) :
    StandsAt (pre ++ bs ++ post) o bs := by
  refine ⟨post, ?_⟩
  rw [List.append_assoc, List.drop_left' size]

/-! ### Two blocks in an image -/

/-- Code and data stand in the file, and loading puts each of them, and the end of each, from one address on. -/
structure Placement (file code data : List Byte) (codeOff dataOff codeBase dataBase : Nat) : Prop where
  codeStands : StandsAt file codeOff code
  dataStands : StandsAt file dataOff data
  codeAddress : ∀ i ≤ code.length, address file (codeOff + i) = some (codeBase + i)
  dataAddress : ∀ i ≤ data.length, address file (dataOff + i) = some (dataBase + i)
  codeLoaded : LoadedAt file codeBase code
  dataLoaded : LoadedAt file dataBase data

/-- A part of the code that is empty stands where the code does. -/
theorem Placement.nil_code {file code data : List Byte} {codeOff dataOff codeBase dataBase : Nat}
    (placed : Placement file code data codeOff dataOff codeBase dataBase) :
    Placement file [] data codeOff dataOff codeBase dataBase :=
  { placed with
    codeStands := List.nil_prefix
    codeAddress := fun i inside => placed.codeAddress i (inside.trans (Nat.zero_le _))
    codeLoaded := fun _ inside => absurd inside (Nat.not_lt_zero _) }

section Segments

variable {file code data : List Byte} {s t : Segment} {o codeOff dataOff : Nat}

theorem address_of_first {rest : List Segment} (first : loads file = s :: rest) (lower : s.offset ≤ o)
    (upper : o ≤ s.offset + s.filesz) : address file o = some (s.vaddr + (o - s.offset)) := by
  simp [address, first, lower, upper]

theorem address_of_second {rest : List Segment} (two : loads file = s :: t :: rest)
    (other : s.offset + s.filesz < o) (lower : t.offset ≤ o) (upper : o ≤ t.offset + t.filesz) :
    address file o = some (t.vaddr + (o - t.offset)) := by
  have outside : ¬(s.offset ≤ o ∧ o ≤ s.offset + s.filesz) := by omega
  simp [address, two, outside, lower, upper]

/-- Bytes inside a segment that no segment before it covers are loaded. -/
theorem loadedAt_of_segment (before : List Segment) {rest : List Segment} (shape : loads file = before ++ s :: rest)
    (sizes : s.memsz = s.filesz) {bs : List Byte} (here : StandsAt file o bs) (lower : s.offset ≤ o)
    (upper : o + bs.length ≤ s.offset + s.filesz)
    (apart : ∀ t ∈ before, t.vaddr + t.memsz ≤ s.vaddr + (o - s.offset)) :
    LoadedAt file (s.vaddr + (o - s.offset)) bs := by
  intro i inside
  have free : before.find? (fun t => decide (t.vaddr ≤ s.vaddr + (o - s.offset) + i ∧
      s.vaddr + (o - s.offset) + i < t.vaddr + t.memsz)) = none := by
    rw [List.find?_eq_none]
    intro t member
    have := apart t member
    simp only [decide_eq_true_eq]
    omega
  have mapped : s.vaddr ≤ s.vaddr + (o - s.offset) + i ∧ s.vaddr + (o - s.offset) + i < s.vaddr + s.memsz := by
    omega
  have position : s.offset + (s.vaddr + (o - s.offset) + i - s.vaddr) = o + i := by omega
  have stored : s.vaddr + (o - s.offset) + i - s.vaddr < s.filesz := by omega
  simp only [memory, shape, List.find?_append, free, Option.none_or, List.find?_cons, mapped, and_self, decide_true,
    Option.bind_some, stored, if_true, position, here.getElem inside]

/-- One segment, loaded whole, with both blocks in it. -/
theorem Placement.of_one (only : loads file = [s]) (sizes : s.memsz = s.filesz) (start : s.offset = 0)
    (hcode : StandsAt file codeOff code) (hdata : StandsAt file dataOff data)
    (codeEnd : codeOff + code.length ≤ s.filesz) (dataEnd : dataOff + data.length ≤ s.filesz) :
    Placement file code data codeOff dataOff (s.vaddr + codeOff) (s.vaddr + dataOff) where
  codeStands := hcode
  dataStands := hdata
  codeAddress i inside := by
    rw [address_of_first only (by omega) (by omega), start, Nat.sub_zero, Nat.add_assoc]
  dataAddress i inside := by
    rw [address_of_first only (by omega) (by omega), start, Nat.sub_zero, Nat.add_assoc]
  codeLoaded := by
    have loaded := loadedAt_of_segment [] only sizes hcode (by omega) (by omega) (by simp)
    rwa [start] at loaded
  dataLoaded := by
    have loaded := loadedAt_of_segment [] only sizes hdata (by omega) (by omega) (by simp)
    rwa [start] at loaded

/-- A segment for each block, the second one later in the file and in memory by the same distance. -/
theorem Placement.of_two (two : loads file = [s, t]) (sizes : s.memsz = s.filesz ∧ t.memsz = t.filesz)
    (hcode : StandsAt file s.offset code) (hdata : StandsAt file t.offset data)
    (exact : s.filesz = code.length ∧ t.filesz = data.length)
    (files : s.offset + s.filesz ≤ t.offset) (addresses : t.vaddr + s.offset = s.vaddr + t.offset) :
    Placement file code data s.offset t.offset s.vaddr t.vaddr where
  codeStands := hcode
  dataStands := hdata
  codeAddress i inside := by
    rw [address_of_first two (by omega) (by omega), Nat.add_sub_cancel_left]
  dataAddress i inside := by
    by_cases boundary : t.offset + i ≤ s.offset + s.filesz
    · rw [address_of_first two (by omega) boundary]
      congr 1
      omega
    · rw [address_of_second two (by omega) (by omega) (by omega), Nat.add_sub_cancel_left]
  codeLoaded := by
    have loaded := loadedAt_of_segment [] two sizes.1 hcode (le_refl _) (by omega) (by simp)
    rwa [Nat.sub_self, Nat.add_zero] at loaded
  dataLoaded := by
    have loaded := loadedAt_of_segment [s] two sizes.2 hdata (le_refl _) (by omega) fun u member => by
      rw [List.mem_singleton.mp member]
      omega
    rwa [Nat.sub_self, Nat.add_zero] at loaded

end Segments

end Aclm.X64.Elf
