import Aclm.Image.Debug
import Aclm.Image.Kernel

/-! Where the image writers put code and data, and where loading the image puts them. -/

set_option autoImplicit false

namespace Aclm.Image

open X64 (Byte leBytes leBytes_length)
open X64.Elf

theorem pack_ok {n v : Nat} {bs : List Byte} : pack n v = .ok bs ↔ v < 256 ^ n ∧ bs = leBytes n v := by
  unfold pack
  split
  · next fits => simp [fits, eq_comm]
  · next large => simp [large]

/-- The fields of the file header that lead to the program headers. -/
structure Leads64 (ehdr : List Byte) (phnum : Nat) : Prop where
  length : ehdr.length = 64
  fields : ∀ rest, field (ehdr ++ rest) 4 1 = 2 ∧ field (ehdr ++ rest) 32 8 = 64 ∧ field (ehdr ++ rest) 54 2 = 56 ∧
    field (ehdr ++ rest) 56 2 = phnum

theorem leads_of_ehdr64 {h : Ehdr} {bs : List Byte} (ok : ehdr64 h = .ok bs) (few : h.phnum < 65536) :
    Leads64 bs h.phnum := by
  simp only [ehdr64, bind_eq_ok, pack_ok] at ok
  obtain ⟨entry, ⟨-, rfl⟩, shoff, ⟨-, rfl⟩, shape⟩ := ok
  cases shape
  refine ⟨by simp, fun rest => ⟨by simp [field, X64.leValue], ?_, ?_, ?_⟩⟩ <;>
    simp (disch := simp) only [List.append_assoc, field_skip, field_leBytes, List.length_cons, List.length_nil,
      List.length_replicate, leBytes_length, Nat.reduceAdd, Nat.reduceSub]
  · decide
  · decide
  · exact Nat.mod_eq_of_lt few

theorem header64_of_phdr64 {flags offset vaddr size : Nat} {bs : List Byte}
    (ok : phdr64 flags offset vaddr size = .ok bs) (small : flags < 256 ^ 4) :
    bs.length = 56 ∧ ∀ rest, header64 (bs ++ rest) 0 = ⟨1, flags, offset, vaddr, size, size⟩ := by
  simp only [phdr64, bind_eq_ok, pack_ok] at ok
  obtain ⟨o, ⟨ho, rfl⟩, v, ⟨hv, rfl⟩, s, ⟨hs, rfl⟩, shape⟩ := ok
  cases shape
  refine ⟨by simp, fun rest => ?_⟩
  simp (disch := simp) only [header64, List.append_assoc, field_skip, field_leBytes, leBytes_length, Nat.reduceSub,
    Nat.zero_add, Nat.mod_eq_of_lt ho, Nat.mod_eq_of_lt hv, Nat.mod_eq_of_lt hs, Nat.mod_eq_of_lt small, Nat.sub_self]
  rfl

theorem loads_one {ehdr phdr rest : List Byte} {s : Segment} (leads : Leads64 ehdr 1)
    (header : ∀ rest, header64 (phdr ++ rest) 0 = s) (load : s.type = 1) : loads (ehdr ++ phdr ++ rest) = [s] := by
  obtain ⟨cls, phoff, phentsize, phnum⟩ := leads.fields (phdr ++ rest)
  have first : header64 (ehdr ++ (phdr ++ rest)) 64 = s := by
    rw [header64_skip (by rw [leads.length]), leads.length]
    exact header rest
  rw [List.append_assoc]
  simp [loads, cls, segments64, phoff, phentsize, phnum, first, load]

theorem loads_two {ehdr phdr phdr' rest : List Byte} {s t : Segment} (leads : Leads64 ehdr 2)
    (size : phdr.length = 56) (header : ∀ rest, header64 (phdr ++ rest) 0 = s)
    (header' : ∀ rest, header64 (phdr' ++ rest) 0 = t) (load : s.type = 1 ∧ t.type = 1) :
    loads (ehdr ++ phdr ++ phdr' ++ rest) = [s, t] := by
  obtain ⟨cls, phoff, phentsize, phnum⟩ := leads.fields (phdr ++ (phdr' ++ rest))
  have first : header64 (ehdr ++ (phdr ++ (phdr' ++ rest))) 64 = s := by
    rw [header64_skip (by rw [leads.length]), leads.length]
    exact header _
  have second : header64 (ehdr ++ (phdr ++ (phdr' ++ rest))) 120 = t := by
    rw [header64_skip (by rw [leads.length]; decide), leads.length, header64_skip (by rw [size]), size]
    exact header' rest
  simp only [List.append_assoc]
  simp [loads, cls, segments64, phoff, phentsize, phnum, first, second, load, List.range_succ]

/-! ### The writers for Linux -/

section Linux

variable {code data image : List Byte}

/-- The header, one segment from the start of the file, the code and the data; anything may follow. -/
theorem placement_plain (rest : List Byte) {h : Ehdr} {ehdr phdr : List Byte} {size : Nat} (ehdrOk : ehdr64 h = .ok ehdr)
    (one : h.phnum = 1) (phdrOk : phdr64 7 0 LOAD_VADDR size = .ok phdr)
    (sizeEq : size = EHDR_SIZE + PHDR_SIZE + code.length + data.length) :
    Placement (ehdr ++ phdr ++ code ++ data ++ rest) code data 120 (120 + code.length) (LOAD_VADDR + 120)
      (LOAD_VADDR + (120 + code.length)) := by
  have leads := leads_of_ehdr64 ehdrOk (by omega)
  obtain ⟨length, header⟩ := header64_of_phdr64 phdrOk (by decide)
  have front : (ehdr ++ phdr).length = 120 := by rw [List.length_append, leads.length, length]
  have only : loads (ehdr ++ phdr ++ code ++ data ++ rest) = [⟨1, 7, 0, LOAD_VADDR, size, size⟩] := by
    rw [List.append_assoc, List.append_assoc (ehdr ++ phdr)]
    exact loads_one (one ▸ leads) header rfl
  have total : size = 120 + code.length + data.length := sizeEq
  refine Placement.of_one only rfl rfl ?_ ?_ (by dsimp only; omega) (by dsimp only; omega)
  · rw [List.append_assoc]
    exact StandsAt.of_append front
  · exact StandsAt.of_append (by rw [List.length_append, front])

theorem placement_exe {entry : Nat} (ok : buildElf64Exe code data entry = .ok image) :
    Placement image code data 120 (120 + code.length) (LOAD_VADDR + 120) (LOAD_VADDR + (120 + code.length)) := by
  obtain ⟨ehdr, ehdrOk, phdr, phdrOk, shape⟩ : ∃ ehdr, ehdr64 _ = .ok ehdr ∧ ∃ phdr, phdr64 _ _ _ _ = .ok phdr ∧ _ := by
    simpa only [buildElf64Exe, bind_eq_ok] using ok
  cases shape
  simpa using placement_plain [] ehdrOk rfl phdrOk rfl

theorem prefix_padTo (n : Nat) (b : Byte) (blob : List Byte) : blob <+: padTo n b blob := List.prefix_append _ _

theorem padTo_length (n : Nat) (b : Byte) (blob : List Byte) : (padTo n b blob).length = max n blob.length := by
  simp only [padTo, List.length_append, List.length_replicate]
  omega

/-- Debug sections and symbols stand behind the data. -/
theorem placement_symtab {symbols : List (String × Nat)} {entry : Nat}
    (ok : buildElf64WithSymtab code data symbols entry = .ok image) :
    Placement image code data 120 (120 + code.length) (LOAD_VADDR + 120) (LOAD_VADDR + (120 + code.length)) := by
  obtain ⟨base, built, whole⟩ := bind_eq_ok.mp ok
  cases whole
  simp only [buildElf64ExeDebug, bind_eq_ok] at built
  obtain ⟨line, -, info, -, s0, -, s1, -, s2, -, s3, -, s4, -, built⟩ := built
  obtain ⟨ehdr, ehdrOk, phdr, phdrOk, shape⟩ := built
  have further {n : Nat} {blob more : List Byte} (front : ehdr ++ phdr ++ code ++ data <+: blob) :
      ehdr ++ phdr ++ code ++ data <+: padTo n 0 blob ++ more :=
    (front.trans (prefix_padTo n 0 blob)).trans (List.prefix_append _ _)
  have front : ehdr ++ phdr ++ code ++ data <+: base := by
    cases shape
    exact further (further (further (further (further (List.prefix_refl _)))))
  obtain ⟨rest, shape⟩ := front
  rw [← shape, List.append_assoc, List.append_assoc _ rest]
  exact placement_plain _ ehdrOk rfl phdrOk rfl

theorem le_align (n : Nat) : n ≤ align PAGE n := by
  unfold align PAGE
  omega

/-- The code has pages of its own, and so has the data. -/
theorem placement_wx {entry : Nat} (ok : buildElf64ExeWx code data entry = .ok image) :
    Placement image code data (wxCodeDataFileOffsets code.length).1 (wxCodeDataFileOffsets code.length).2
      (LOAD_VADDR + (wxCodeDataFileOffsets code.length).1) (LOAD_VADDR + (wxCodeDataFileOffsets code.length).2) := by
  simp only [buildElf64ExeWx, bind_eq_ok] at ok
  obtain ⟨ehdr, ehdrOk, phdr, phdrOk, phdr', phdrOk', shape⟩ := ok
  cases shape
  have leads := leads_of_ehdr64 ehdrOk (show 2 < 65536 by decide)
  obtain ⟨length, header⟩ := header64_of_phdr64 phdrOk (by decide)
  obtain ⟨length', header'⟩ := header64_of_phdr64 phdrOk' (by decide)
  simp only [wxCodeDataFileOffsets]
  have codeStart : align PAGE (EHDR_SIZE + 2 * PHDR_SIZE) = 4096 := by decide
  have dataStart := le_align (align PAGE (EHDR_SIZE + 2 * PHDR_SIZE) + code.length)
  generalize align PAGE (align PAGE (EHDR_SIZE + 2 * PHDR_SIZE) + code.length) = dataOff at *
  generalize align PAGE (EHDR_SIZE + 2 * PHDR_SIZE) = codeOff at *
  have front : (padTo codeOff 0 (ehdr ++ phdr ++ phdr')).length = codeOff := by
    simp only [padTo_length, List.length_append, leads.length, length, length']
    omega
  have middle : (padTo dataOff 0 (padTo codeOff 0 (ehdr ++ phdr ++ phdr') ++ code)).length = dataOff := by
    rw [padTo_length, List.length_append, front]
    omega
  have two : loads (padTo dataOff 0 (padTo codeOff 0 (ehdr ++ phdr ++ phdr') ++ code) ++ data) =
      [⟨1, 5, codeOff, LOAD_VADDR + codeOff, code.length, code.length⟩,
        ⟨1, 6, dataOff, LOAD_VADDR + dataOff, data.length, data.length⟩] := by
    simp only [padTo, List.append_assoc (ehdr ++ phdr ++ phdr')]
    exact loads_two leads length header header' ⟨rfl, rfl⟩
  refine Placement.of_two two ⟨rfl, rfl⟩ ?_ ?_ ⟨rfl, rfl⟩ dataStart (Nat.add_right_comm _ _ _)
  · rw [padTo, List.append_assoc]
    exact StandsAt.of_append front
  · have stands : StandsAt (_ ++ data ++ []) dataOff data := StandsAt.of_append middle
    rwa [List.append_nil] at stands

end Linux

/-! ### The boot image -/

section Kernel

variable {code data image : List Byte}

theorem stub_length {kmainPhys : Nat} {stub : List Byte} (ok : buildLongModeStub64 kmainPhys = .ok stub) :
    stub.length = 32 := by
  obtain ⟨kmain, packed, shape⟩ := bind_eq_ok.mp ok
  obtain ⟨-, rfl⟩ := pack_ok.mp packed
  cases shape
  rfl

theorem u32_length (v : Nat) : (u32 v).length = 4 := leBytes_length 4 v

theorem trampoline_length (pml4Phys gdtrPhys longStubPhys : Nat) :
    (buildTrampoline32 pml4Phys gdtrPhys longStubPhys).length = 63 := by
  unfold buildTrampoline32
  simp only [List.length_append, u32_length, leBytes_length]
  simp only [List.length_cons, List.length_nil]

theorem pageTables_length (pdptPhys pdPhys : Nat) : (pageTables pdptPhys pdPhys).length = 3 * 4096 := by
  simp only [pageTables, tablePage, List.length_append, leBytes_length, List.length_replicate, List.length_flatMap,
    List.map_const', List.sum_replicate, List.length_range]
  rfl

/-- The ELF headers, and one segment with the whole file. -/
theorem multiboot_file {entry loadAddr : Nat} (ok : buildElf32Multiboot code data entry loadAddr = .ok image) :
    ∃ front, front.length = HEADER_TOTAL ∧ image = front ++ code ++ data ∧
      loads image = [⟨1, 7, 0, loadAddr, HEADER_TOTAL + code.length + data.length,
        HEADER_TOTAL + code.length + data.length⟩] := by
  simp only [buildElf32Multiboot, bind_eq_ok, pack_ok] at ok
  obtain ⟨e, ⟨-, rfl⟩, l, ⟨load, rfl⟩, s, ⟨size, rfl⟩, shape⟩ := ok
  generalize fileHeader : [0x7F, 0x45, 0x4C, 0x46, 1, 1, 1, 0] ++ List.replicate 8 0 ++ leBytes 2 2 ++ leBytes 2 0x03 ++
    leBytes 4 1 ++ leBytes 4 (loadAddr + (52 + 32) + entry) ++ leBytes 4 52 ++ leBytes 4 0 ++ leBytes 4 0 ++
    leBytes 2 52 ++ leBytes 2 32 ++ leBytes 2 1 ++ leBytes 2 0 ++ leBytes 2 0 ++ leBytes 2 0 = ehdr at shape
  generalize programHeader : leBytes 4 1 ++ leBytes 4 0 ++ leBytes 4 loadAddr ++ leBytes 4 loadAddr ++
    leBytes 4 (52 + 32 + code.length + data.length) ++ leBytes 4 (52 + 32 + code.length + data.length) ++
    leBytes 4 7 ++ leBytes 4 PAGE = phdr at shape
  cases shape
  have length : ehdr.length = 52 := by
    simp only [← fileHeader, List.length_append, leBytes_length, List.length_replicate]
    rfl
  have fields (rest : List Byte) : field (ehdr ++ rest) 4 1 = 1 ∧ field (ehdr ++ rest) 28 4 = 52 ∧
      field (ehdr ++ rest) 42 2 = 32 ∧ field (ehdr ++ rest) 44 2 = 1 := by
    subst fileHeader
    refine ⟨by simp [field, X64.leValue], ?_, ?_, ?_⟩ <;>
      simp (disch := simp) only [List.append_assoc, field_skip, field_leBytes, List.length_cons, List.length_nil,
        List.length_replicate, leBytes_length, Nat.reduceAdd, Nat.reduceSub] <;>
      decide
  have header (rest : List Byte) : header32 (phdr ++ rest) 0 =
      ⟨1, 7, 0, loadAddr, 52 + 32 + code.length + data.length, 52 + 32 + code.length + data.length⟩ := by
    subst programHeader
    simp (disch := simp) only [header32, List.append_assoc, field_skip, field_leBytes, leBytes_length, Nat.reduceSub,
      Nat.zero_add, Nat.mod_eq_of_lt load, Nat.mod_eq_of_lt size, Nat.sub_self]
    rfl
  refine ⟨ehdr ++ phdr, ?_, rfl, ?_⟩
  · rw [List.length_append, length, ← programHeader]
    simp only [List.length_append, leBytes_length]
    rfl
  · obtain ⟨cls, phoff, phentsize, phnum⟩ := fields (phdr ++ (code ++ data))
    have only := header (code ++ data)
    rw [← Nat.sub_self 52, ← length, ← header32_skip (by rw [length]), length] at only
    rw [List.append_assoc, List.append_assoc]
    simp [loads, cls, segments32, phoff, phentsize, phnum, only, HEADER_TOTAL]

/-- The offset of the 64-bit payload in the file. -/
def payloadOffset : Nat := HEADER_TOTAL + (bootLayout (LOAD_ADDR + HEADER_TOTAL)).userOff

/-- What stands before the payload fills the place counted for it. -/
theorem kernel_shape (code data : List Byte) : ∃ boot, boot.length = 16380 ∧
    buildLongModeKernel code data LOAD_ADDR =
      buildElf32Multiboot (boot ++ code ++ data ++ STOP) [] buildMultibootHeader.length LOAD_ADDR := by
  have layout : bootLayout (LOAD_ADDR + HEADER_TOTAL) = ⟨4012, 16300, 16308, 16348, 16380⟩ := by decide
  obtain ⟨stub, stubOk⟩ : ∃ stub, buildLongModeStub64 (LOAD_ADDR + HEADER_TOTAL + 16380) = .ok stub :=
    ⟨_, bind_eq_ok.mpr ⟨_, pack_ok.mpr ⟨by decide, rfl⟩, rfl⟩⟩
  have stubLength := stub_length stubOk
  simp only [buildLongModeKernel, layout]
  rw [stubOk, ok_bind]
  generalize boot : padTo 16380 0x90 _ = bytes
  refine ⟨bytes, ?_, rfl⟩
  simp only [← boot, padTo_length, List.length_append, stubLength, pageTables_length, trampoline_length, leBytes_length]
  rfl

/-- The payload stands behind the way into long mode, and the data behind the payload. -/
theorem placement_kernel (ok : buildLongModeKernel code data LOAD_ADDR = .ok image) :
    Placement image code data payloadOffset (payloadOffset + code.length) (LOAD_ADDR + payloadOffset)
      (LOAD_ADDR + (payloadOffset + code.length)) := by
  obtain ⟨boot, length, same⟩ := kernel_shape code data
  rw [same] at ok
  obtain ⟨front, frontLength, shape, only⟩ := multiboot_file ok
  have start : payloadOffset = (front ++ boot).length := by
    rw [List.length_append, frontLength, length]
    decide
  have whole : image = front ++ boot ++ code ++ data ++ STOP := by
    rw [shape]
    simp only [List.append_nil, List.append_assoc]
  have codeStands : StandsAt image payloadOffset code := by
    rw [whole, List.append_assoc]
    exact StandsAt.of_append start.symm
  have dataStands : StandsAt image (payloadOffset + code.length) data := by
    rw [whole]
    exact StandsAt.of_append (by rw [List.length_append, start])
  have size : payloadOffset + code.length + data.length ≤
      HEADER_TOTAL + (boot ++ code ++ data ++ STOP).length + ([] : List Byte).length := by
    simp only [start, List.length_append, frontLength]
    omega
  exact Placement.of_one only rfl rfl codeStands dataStands ((Nat.le_add_right _ _).trans size) size

/-- A boot image is written unless its size is out of range. -/
theorem kernel_written (code data : List Byte) (small : code.length + data.length < 2 ^ 31) :
    ∃ image, buildLongModeKernel code data LOAD_ADDR = .ok image := by
  obtain ⟨boot, length, same⟩ := kernel_shape code data
  have size : 52 + 32 + (boot ++ code ++ data ++ STOP).length + ([] : List Byte).length < 256 ^ 4 := by
    simp only [List.length_append, length, STOP, List.length_cons, List.length_nil]
    omega
  rw [same]
  exact ⟨_, bind_eq_ok.mpr ⟨_, pack_ok.mpr ⟨by decide, rfl⟩, bind_eq_ok.mpr ⟨_, pack_ok.mpr ⟨by decide, rfl⟩,
    bind_eq_ok.mpr ⟨_, pack_ok.mpr ⟨size, rfl⟩, rfl⟩⟩⟩⟩

end Kernel

end Aclm.Image
