import Aclm.Image.Loading
import Aclm.X64.Paging

/-! The boot image in memory: its parts, the addresses they carry, and the page walk. -/

set_option autoImplicit false

namespace Aclm.Image

open X64 (Byte leBytes leBytes_length)
open X64.Elf X64.Paging

/-- The addresses of the parts of the boot image. -/
structure BootAddresses where
  header : Nat
  trampoline : Nat
  pml4 : Nat
  pdpt : Nat
  pd : Nat
  gdtr : Nat
  gdt : Nat
  stub : Nat
  payload : Nat

def bootAddresses (loadAddr : Nat) : BootAddresses :=
  let codeStart := loadAddr + HEADER_TOTAL
  let l := bootLayout codeStart
  { header := codeStart, trampoline := codeStart + buildMultibootHeader.length, pml4 := codeStart + l.pml4Off,
    pdpt := codeStart + l.pml4Off + 4096, pd := codeStart + l.pml4Off + 8192, gdtr := codeStart + l.gdtrOff,
    gdt := codeStart + l.gdtOff, stub := codeStart + l.stubOff, payload := codeStart + l.userOff }

/-- Address and size of everything that is loaded: the parts, the ELF headers before them and the stop behind them. -/
def BootAddresses.parts (a : BootAddresses) (loadAddr code data : Nat) : List (Nat × Nat) :=
  [(loadAddr, HEADER_TOTAL), (a.header, 12), (a.trampoline, 63), (a.pml4, 4096), (a.pdpt, 4096), (a.pd, 4096),
    (a.gdtr, 6), (a.gdt, buildGdt.length), (a.stub, 32), (a.payload, code), (a.payload + code, data),
    (a.payload + code + data, STOP.length)]

/-- The page directory: 512 pages of 2 MiB. -/
def directory : List Byte := (List.range 512).flatMap fun i => leBytes 8 (i * 0x200000 ||| 0x83)

/-- The image in memory has every part at its address, and carries the addresses of the parts. -/
structure Boots (image code data : List Byte) (a : BootAddresses) : Prop where
  header : LoadedAt image a.header buildMultibootHeader
  trampoline : LoadedAt image a.trampoline (buildTrampoline32 a.pml4 a.gdtr a.stub)
  gdtrCarried : number image (a.trampoline + 7) 4 = some a.gdtr
  pml4Carried : number image (a.trampoline + 24) 4 = some a.pml4
  stubCarried : number image (a.trampoline + 57) 4 = some a.stub
  pml4 : LoadedAt image a.pml4 (tablePage a.pdpt)
  pdpt : LoadedAt image a.pdpt (tablePage a.pd)
  pd : LoadedAt image a.pd directory
  gdtLimit : number image a.gdtr 2 = some (buildGdt.length - 1)
  gdtCarried : number image (a.gdtr + 2) 4 = some a.gdt
  gdt : LoadedAt image a.gdt buildGdt
  stub : ∃ stub, buildLongModeStub64 a.payload = .ok stub ∧ LoadedAt image a.stub stub
  payloadCarried : number image (a.stub + 22) 8 = some a.payload
  payload : LoadedAt image a.payload code
  data : LoadedAt image (a.payload + code.length) data

/-! ### Standing in the file -/

section Standing

variable {file xs ys : List Byte} {o n : Nat} {b : Byte}

theorem standsAt_left (here : StandsAt file o (xs ++ ys)) : StandsAt file o xs := (List.prefix_append _ _).trans here

theorem standsAt_right (here : StandsAt file o (xs ++ ys)) : StandsAt file (o + xs.length) ys := by
  obtain ⟨rest, shape⟩ := here
  refine ⟨rest, ?_⟩
  rw [← List.drop_drop, ← shape, List.append_assoc, List.drop_left' rfl]

/-- What was padded, and what stands behind it. -/
theorem standsAt_padTo (here : StandsAt file o (padTo n b xs ++ ys)) (short : xs.length ≤ n) :
    StandsAt file o xs ∧ StandsAt file (o + n) ys := by
  refine ⟨standsAt_left (standsAt_left here), ?_⟩
  have behind := standsAt_right here
  rwa [padTo_length, Nat.max_eq_left short] at behind

/-- Entry `i` of a table of entries of one size. -/
theorem table_entry {k m i : Nat} {f : Nat → List Byte} (sizes : ∀ j, (f j).length = k) (inside : i < m) :
    StandsAt ((List.range m).flatMap f) (k * i) (f i) := by
  obtain ⟨rest, rfl⟩ : ∃ rest, m = i + (rest + 1) := ⟨m - i - 1, by omega⟩
  have front : ((List.range i).flatMap f).length = k * i := by
    simp [List.length_flatMap, sizes, Nat.mul_comm]
  have shape : (List.range (i + (rest + 1))).flatMap f =
      (List.range i).flatMap f ++ f i ++ ((List.range rest).map fun j => i + (j + 1)).flatMap f := by
    simp [List.range_add, List.range_succ_eq_map, Function.comp_def]
  rw [shape]
  exact StandsAt.of_append front

end Standing

/-! ### The image -/

section Image

variable {code data image : List Byte}

/-- The layout for the default load address. -/
theorem bootLayout_default : bootLayout (LOAD_ADDR + HEADER_TOTAL) = ⟨4012, 16300, 16308, 16348, 16380⟩ := by decide

theorem addresses_default : bootAddresses LOAD_ADDR =
    ⟨0x100054, 0x100060, 0x101000, 0x102000, 0x103000, 0x104000, 0x104008, 0x104030, 0x104050⟩ := by
  simp only [bootAddresses, bootLayout_default]
  rfl

/-- The wrapped code stands behind the headers, and the one segment is the file. -/
theorem multiboot_stands {entry loadAddr : Nat} (ok : buildElf32Multiboot code [] entry loadAddr = .ok image) :
    StandsAt image HEADER_TOTAL code ∧ loads image = [⟨1, 7, 0, loadAddr, image.length, image.length⟩] := by
  obtain ⟨front, frontLength, shape, only⟩ := multiboot_file ok
  have size : image.length = HEADER_TOTAL + code.length + ([] : List Byte).length := by
    rw [shape, List.length_append, List.length_append, frontLength]
  rw [← size] at only
  refine ⟨?_, only⟩
  rw [shape]
  exact StandsAt.of_append frontLength

/-- The file up to the payload, part for part. -/
structure Laid (image code data stub : List Byte) : Prop where
  segment : loads image = [⟨1, 7, 0, LOAD_ADDR, image.length, image.length⟩]
  header : StandsAt image 84 buildMultibootHeader
  trampoline : StandsAt image 96 (buildTrampoline32 0x101000 0x104000 0x104030)
  pages : StandsAt image 4096 (pageTables 0x102000 0x103000)
  gdtr : StandsAt image 16384 (leBytes 2 (buildGdt.length - 1) ++ leBytes 4 0x104008)
  gdt : StandsAt image 16392 buildGdt
  stub : StandsAt image 16432 stub
  payload : StandsAt image 16464 code
  data : StandsAt image (16464 + code.length) data

/-- Each `while` loop that pads the blob stops at the offset counted before. -/
theorem kernel_laid (written : buildLongModeKernel code data LOAD_ADDR = .ok image) :
    ∃ stub, buildLongModeStub64 0x104050 = .ok stub ∧ Laid image code data stub := by
  simp only [buildLongModeKernel, bootLayout_default, bind_eq_ok] at written
  obtain ⟨stub, stubOk, written⟩ := written
  obtain ⟨whole, segment⟩ := multiboot_stands written
  refine ⟨stub, stubOk, ?_⟩
  have stubLength := stub_length stubOk
  have headerLength : buildMultibootHeader.length = 12 := rfl
  have gdtLength : buildGdt.length = 40 := rfl
  -- From the last padding to the first: what stands behind it, and the blob before it.
  have standing := standsAt_left whole
  rw [List.append_assoc] at standing
  obtain ⟨blob, payload⟩ := standsAt_padTo standing
    (by simp [padTo_length, stubLength, pageTables_length, trampoline_length, headerLength, gdtLength])
  obtain ⟨blob, stubStands⟩ := standsAt_padTo blob
    (by simp [padTo_length, pageTables_length, trampoline_length, headerLength, gdtLength])
  obtain ⟨blob, gdt⟩ := standsAt_padTo blob (by simp [padTo_length, pageTables_length, trampoline_length, headerLength])
  obtain ⟨blob, gdtr⟩ := standsAt_padTo blob (by simp [padTo_length, pageTables_length, trampoline_length, headerLength])
  obtain ⟨blob, pages⟩ := standsAt_padTo blob (by simp [trampoline_length, headerLength])
  exact {
    segment, pages, gdtr, gdt
    header := standsAt_left blob
    trampoline := standsAt_right blob
    stub := stubStands
    payload := standsAt_left payload
    data := standsAt_right payload }

/-- One segment with the whole file: what stands in the file is loaded. -/
theorem loadedAt_of_whole {loadAddr o : Nat} {bs : List Byte}
    (only : loads image = [⟨1, 7, 0, loadAddr, image.length, image.length⟩]) (here : StandsAt image o bs) :
    LoadedAt image (loadAddr + o) bs := by
  rcases Nat.eq_zero_or_pos bs.length with empty | positive
  · intro i inside
    omega
  · have fits := here.length_le
    rw [List.length_drop] at fits
    have loaded := loadedAt_of_segment [] only rfl here (Nat.zero_le _) (by dsimp only; omega) (by simp)
    simpa using loaded

/-- The fields of the trampoline that hold addresses. -/
theorem trampoline_fields {pml4 gdtr stub : Nat} (small : pml4 < 2 ^ 32 ∧ gdtr < 2 ^ 32 ∧ stub < 2 ^ 32) :
    field (buildTrampoline32 pml4 gdtr stub) 7 4 = gdtr ∧ field (buildTrampoline32 pml4 gdtr stub) 24 4 = pml4 ∧
      field (buildTrampoline32 pml4 gdtr stub) 57 4 = stub := by
  obtain ⟨first, second, third⟩ := small
  unfold buildTrampoline32 u32
  refine ⟨?_, ?_, ?_⟩ <;>
    simp (disch := simp) only [List.append_assoc, field_skip, field_leBytes, List.length_cons, List.length_nil,
      leBytes_length, Nat.reduceAdd, Nat.reduceSub, Nat.reducePow]
  · exact Nat.mod_eq_of_lt second
  · exact Nat.mod_eq_of_lt first
  · exact Nat.mod_eq_of_lt third

theorem stub_field {kmain : Nat} {stub : List Byte} (ok : buildLongModeStub64 kmain = .ok stub) :
    field stub 22 8 = kmain := by
  obtain ⟨bytes, packed, shape⟩ := bind_eq_ok.mp ok
  obtain ⟨small, rfl⟩ := pack_ok.mp packed
  cases shape
  simp (disch := simp) only [List.append_assoc, field_skip, field_leBytes, List.length_cons, List.length_nil,
    leBytes_length, Nat.reduceAdd, Nat.reduceSub]
  exact Nat.mod_eq_of_lt small

theorem tablePage_length (phys : Nat) : (tablePage phys).length = 4096 := by
  rw [tablePage, List.length_append, leBytes_length, List.length_replicate]

theorem directory_length : directory.length = 4096 := by
  simp only [directory, List.length_flatMap, leBytes_length, List.map_const', List.sum_replicate, List.length_range]
  rfl

theorem kernel_boots (written : buildLongModeKernel code data LOAD_ADDR = .ok image) :
    Boots image code data (bootAddresses LOAD_ADDR) := by
  obtain ⟨stub, stubOk, laid⟩ := kernel_laid written
  have loaded {o : Nat} {bs : List Byte} (here : StandsAt image o bs) : LoadedAt image (LOAD_ADDR + o) bs :=
    loadedAt_of_whole laid.segment here
  have trampoline := loaded laid.trampoline
  have fields := @trampoline_fields 0x101000 0x104000 0x104030 (by decide)
  have gdtr := loaded laid.gdtr
  have tables := laid.pages
  have split : pageTables 0x102000 0x103000 = tablePage 0x102000 ++ (tablePage 0x103000 ++ directory) :=
    List.append_assoc _ _ _
  rw [split] at tables
  have further := standsAt_right tables
  rw [tablePage_length] at further
  have last := standsAt_right further
  rw [tablePage_length] at last
  rw [addresses_default]
  exact {
    trampoline
    header := loaded laid.header
    gdtrCarried := (trampoline.number (by simp [trampoline_length])).trans (congrArg some fields.1)
    pml4Carried := (trampoline.number (by simp [trampoline_length])).trans (congrArg some fields.2.1)
    stubCarried := (trampoline.number (by simp [trampoline_length])).trans (congrArg some fields.2.2)
    pml4 := loaded (standsAt_left tables)
    pdpt := loaded (standsAt_left further)
    pd := loaded last
    gdtLimit := gdtr.number (i := 0) (by decide)
    gdtCarried := gdtr.number (i := 2) (by decide)
    gdt := loaded laid.gdt
    stub := ⟨stub, stubOk, loaded laid.stub⟩
    payloadCarried := ((loaded laid.stub).number (by simp [stub_length stubOk])).trans (congrArg some (stub_field stubOk))
    payload := loaded laid.payload
    data := Nat.add_assoc LOAD_ADDR 16464 code.length ▸ loaded laid.data }

/-! ### The page walk -/

theorem directory_entry {i : Nat} (inside : i < 512) : field directory (8 * i) 8 = 2 ^ 21 * i ||| 0x83 := by
  have here : StandsAt directory (8 * i) (leBytes 8 (i * 0x200000 ||| 0x83)) :=
    table_entry (fun _ => leBytes_length _ _) inside
  have read := here.field (i := 0) (n := 8) (by simp)
  rw [Nat.add_zero] at read
  have small : i * 0x200000 ||| 0x83 < 256 ^ 8 := Nat.or_lt_two_pow (n := 64) (by omega) (by decide)
  rw [read, ← List.append_nil (leBytes 8 _), field_leBytes, Nat.mod_eq_of_lt small]
  exact congrArg (· ||| 0x83) (Nat.mul_comm i (2 ^ 21))

theorem tablePage_entry {phys : Nat} (small : phys < 2 ^ 32) : field (tablePage phys) 0 8 = phys / 4096 * 4096 ||| 0x03 := by
  have fits : phys / 4096 * 4096 ||| 0x03 < 256 ^ 8 := Nat.or_lt_two_pow (n := 64) (by omega) (by decide)
  rw [tablePage, field_leBytes, Nat.mod_eq_of_lt fits]

/-- Every address below 1 GiB leads to itself; no page is open to the user. -/
theorem walk_identity (boots : Boots image code data (bootAddresses LOAD_ADDR)) {linear : Nat} (low : linear < 2 ^ 30) :
    walk (number image · 8) (bootAddresses LOAD_ADDR).pml4 linear = some ⟨linear, true, false⟩ := by
  rw [addresses_default] at boots ⊢
  have read4 := boots.pml4.number (i := 0) (n := 8) (by rw [tablePage_length]; decide)
  have read3 := boots.pdpt.number (i := 0) (n := 8) (by rw [tablePage_length]; decide)
  have index : linear / 2 ^ 21 < 512 := by omega
  have read2 := boots.pd.number (i := 8 * (linear / 2 ^ 21)) (n := 8) (by rw [directory_length]; omega)
  rw [tablePage_entry (by decide)] at read4 read3
  rw [directory_entry index] at read2
  have top : linear / 2 ^ 39 % 512 = 0 := by omega
  have second : linear / 2 ^ 30 % 512 = 0 := by omega
  have third : linear / 2 ^ 21 % 512 = linear / 2 ^ 21 := Nat.mod_eq_of_lt index
  have value : 2 ^ 21 * (linear / 2 ^ 21) ||| 0x83 = 2 ^ 21 * (linear / 2 ^ 21) + 0x83 :=
    (Nat.two_pow_add_eq_or_of_lt (by decide) _).symm
  have bits (n : Nat) (small : n < 21) : (2 ^ 21 * (linear / 2 ^ 21) ||| 0x83).testBit n = Nat.testBit 0x83 n := by
    rw [Nat.testBit_or, Nat.testBit_two_pow_mul, decide_eq_false (by omega), Bool.false_and, Bool.false_or]
  rw [@walk_large _ _ _ 0x102003 0x103003 (2 ^ 21 * (linear / 2 ^ 21) ||| 0x83)]
  · have low : (2 ^ 21 * (linear / 2 ^ 21) ||| 0x83) % 2 ^ 21 < 2 ^ 13 := by
      rw [value]
      omega
    have here : frame 21 (2 ^ 21 * (linear / 2 ^ 21) ||| 0x83) + linear % 2 ^ 21 = linear := by
      rw [value, frame]
      omega
    rw [page, if_pos low, here]
    simp only [List.all_cons, List.all_nil, bits 1 (by decide), bits 2 (by decide)]
    rfl
  · rw [entry, top]
    exact congrArg _ read4
  · rfl
  · rw [entry, second]
    exact congrArg _ read3
  · rfl
  · have position : frame 12 0x103003 = 0x103000 := by decide
    rw [entry, third, position, read2, Option.filter_some, bits 0 (by decide)]
    rfl
  · rw [bits 7 (by decide)]
    rfl

/-- One part stands behind the other. -/
theorem parts_apart (code data : Nat) :
    ((bootAddresses LOAD_ADDR).parts LOAD_ADDR code data).Pairwise fun p q => p.1 + p.2 ≤ q.1 := by
  have gdtLength : buildGdt.length = 40 := rfl
  rw [addresses_default]
  simp only [BootAddresses.parts, gdtLength, LOAD_ADDR, HEADER_TOTAL, List.pairwise_cons, List.forall_mem_cons,
    List.not_mem_nil, false_implies, implies_true, List.Pairwise.nil, and_true]
  omega

/-- The boot image, loaded as its program header says: the Multiboot header is where a boot loader looks for it, every part
is at the address that the others carry, the tables are apart from all else, and paging is the identity below 1 GiB. -/
theorem boot_image (code data image : List Byte) (written : buildLongModeKernel code data LOAD_ADDR = .ok image) :
    let a := bootAddresses LOAD_ADDR
    (∃ o, o % 4 = 0 ∧ o + buildMultibootHeader.length ≤ 8192 ∧ StandsAt image o buildMultibootHeader ∧
        address image o = some a.header) ∧
      Boots image code data a ∧
      (a.pml4 % 4096 = 0 ∧ a.pdpt % 4096 = 0 ∧ a.pd % 4096 = 0) ∧
      (a.parts LOAD_ADDR code.length data.length).Pairwise (fun p q => p.1 + p.2 ≤ q.1) ∧
      ∀ linear < 2 ^ 30, (walk (number image · 8) a.pml4 linear).map Translation.address = some linear := by
  intro a
  have boots := kernel_boots written
  obtain ⟨_, _, laid⟩ := kernel_laid written
  refine ⟨⟨84, rfl, by decide, laid.header, ?_⟩, boots, ?_, parts_apart _ _, fun linear low => ?_⟩
  · rw [address_of_first laid.segment (Nat.zero_le _)]
    · exact congrArg (some ·.header) addresses_default.symm
    · have := laid.header.length_le
      rw [List.length_drop] at this
      have headerLength : buildMultibootHeader.length = 12 := rfl
      dsimp only
      omega
  · simp only [a, addresses_default]
    decide
  · rw [walk_identity boots low]
    rfl

theorem boot_image_halt : ∃ image, buildLongModeKernel [0xF4] [1, 2] LOAD_ADDR = .ok image ∧
    Boots image [0xF4] [1, 2] (bootAddresses LOAD_ADDR) ∧
    (walk (number image · 8) (bootAddresses LOAD_ADDR).pml4 0xB8000).map Translation.address = some 0xB8000 := by
  obtain ⟨image, written⟩ := kernel_written [0xF4] [1, 2] (by decide)
  have booted := boot_image [0xF4] [1, 2] image written
  exact ⟨image, written, booted.2.1, booted.2.2.2.2 0xB8000 (by decide)⟩

end Image

end Aclm.Image
