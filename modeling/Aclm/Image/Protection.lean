import Aclm.Image.Limits
import Aclm.X64.Sections

/-! The image with code and data on pages of their own: none of them is both written and executed. -/

set_option autoImplicit false

namespace Aclm.Image

open X64 (Byte leBytes leBytes_length)
open X64.Elf

/-- What the file header says of its entry point and its section headers. -/
structure Announces64 (ehdr : List Byte) (h : Ehdr) : Prop where
  entry : ∀ rest, field (ehdr ++ rest) 24 8 = h.entry
  shoff : ∀ rest, field (ehdr ++ rest) 40 8 = h.shoff
  shentsize : ∀ rest, field (ehdr ++ rest) 58 2 = h.shentsize % 65536
  shnum : ∀ rest, field (ehdr ++ rest) 60 2 = h.shnum % 65536
  shstrndx : ∀ rest, field (ehdr ++ rest) 62 2 = h.shstrndx % 65536

theorem announces_of_ehdr64 {h : Ehdr} {bs : List Byte} (ok : ehdr64 h = .ok bs) : Announces64 bs h := by
  simp only [ehdr64, bind_eq_ok, pack_ok] at ok
  obtain ⟨entry, ⟨small, rfl⟩, shoff, ⟨small', rfl⟩, shape⟩ := ok
  cases shape
  refine ⟨fun rest => ?_, fun rest => ?_, fun rest => ?_, fun rest => ?_, fun rest => ?_⟩ <;>
    simp (disch := simp) only [List.append_assoc, field_skip, field_leBytes, List.length_cons, List.length_nil,
      List.length_replicate, leBytes_length, Nat.reduceAdd, Nat.reduceSub]
  · exact Nat.mod_eq_of_lt small
  · exact Nat.mod_eq_of_lt small'
  all_goals rfl

theorem align_dvd (a n : Nat) : a ∣ align a n := Dvd.intro_left _ rfl

/-- The segments of the image: the code is read and executed, the data read and written. -/
structure Segregated (image code data : List Byte) (entry : Nat) (text rw : Segment) : Prop where
  only : loads image = [text, rw]
  executed : text.executable = true
  written : rw.writable = true
  exclusive : ∀ page, ¬ (Maps PAGE image Segment.writable page ∧ Maps PAGE image Segment.executable page)
  codeCarried : text.Carries PAGE image code
  dataCarried : rw.Carries PAGE image data
  start : field image 24 8 = text.vaddr + entry
  offsets : (text.offset, rw.offset) = wxCodeDataFileOffsets code.length
  distance : rw.vaddr - text.vaddr = rw.offset - text.offset ∧ text.vaddr ≤ rw.vaddr ∧ text.offset ≤ rw.offset

/-- What stands in the file stands there in the segment that covers it. -/
theorem carries_of_stands {image bs : List Byte} {flags offset vaddr : Nat} (stands : StandsAt image offset bs)
    (inside : offset ≤ image.length) (congruent : offset % PAGE = vaddr % PAGE) :
    Segment.Carries PAGE image ⟨1, flags, offset, vaddr, bs.length, bs.length⟩ bs where
  congruent := congruent
  inside := stands.le_length inside
  contents := stands.take
  whole := rfl

theorem wx_segregated {code data image : List Byte} {entry : Nat} (ok : buildElf64ExeWx code data entry = .ok image) :
    ∃ text rw, Segregated image code data entry text rw := by
  have placed := placement_wx ok
  simp only [buildElf64ExeWx, bind_eq_ok] at ok
  obtain ⟨ehdr, ehdrOk, phdr, phdrOk, phdr', phdrOk', shape⟩ := ok
  have leads := leads_of_ehdr64 ehdrOk (show 2 < 65536 by decide)
  have announces := announces_of_ehdr64 ehdrOk
  obtain ⟨length, header⟩ := header64_of_phdr64 phdrOk (by decide)
  obtain ⟨-, header'⟩ := header64_of_phdr64 phdrOk' (by decide)
  have codeAligned : PAGE ∣ (wxCodeDataFileOffsets code.length).1 := align_dvd _ _
  have dataAligned : PAGE ∣ (wxCodeDataFileOffsets code.length).2 := align_dvd _ _
  have later : (wxCodeDataFileOffsets code.length).1 + code.length ≤ (wxCodeDataFileOffsets code.length).2 :=
    le_align _
  have base : PAGE ∣ LOAD_VADDR := by decide
  cases Except.ok.inj shape
  simp only [wxCodeDataFileOffsets] at placed codeAligned dataAligned later
  generalize dataOffEq : align PAGE (align PAGE (EHDR_SIZE + 2 * PHDR_SIZE) + code.length) = dataOff at *
  generalize codeOffEq : align PAGE (EHDR_SIZE + 2 * PHDR_SIZE) = codeOff at *
  have two : loads (padTo dataOff 0 (padTo codeOff 0 (ehdr ++ phdr ++ phdr') ++ code) ++ data) =
      [⟨1, 5, codeOff, LOAD_VADDR + codeOff, code.length, code.length⟩,
        ⟨1, 6, dataOff, LOAD_VADDR + dataOff, data.length, data.length⟩] := by
    simp only [padTo, List.append_assoc (ehdr ++ phdr ++ phdr')]
    exact loads_two leads length header header' ⟨rfl, rfl⟩
  have size : dataOff ≤ (padTo dataOff 0 (padTo codeOff 0 (ehdr ++ phdr ++ phdr') ++ code) ++ data).length := by
    rw [List.length_append, padTo_length]
    omega
  -- Both segments are mapped from whole pages.
  have congruent {offset : Nat} (aligned : PAGE ∣ offset) : offset % PAGE = (LOAD_VADDR + offset) % PAGE := by
    rw [Nat.mod_eq_zero_of_dvd aligned, Nat.mod_eq_zero_of_dvd (base.add aligned)]
  obtain ⟨executes, fixed, plain, writes⟩ : Nat.testBit 5 0 = true ∧ Nat.testBit 5 1 = false ∧
      Nat.testBit 6 0 = false ∧ Nat.testBit 6 1 = true := by decide
  refine ⟨_, _, two, executes, writes, fun page => ?_, ?_, ?_, ?_, ?_, ?_⟩
  -- The data begin on the page behind the last one of the code.
  · exact not_maps_both two (by decide) (base.add dataAligned) (by dsimp only; omega) fixed plain
  · exact carries_of_stands placed.codeStands (by omega) (congruent codeAligned)
  · exact carries_of_stands placed.dataStands size (congruent dataAligned)
  · simp only [padTo, List.append_assoc]
    exact announces.entry _
  · simp only [wxCodeDataFileOffsets, codeOffEq, dataOffEq]
  · dsimp only
    omega

theorem wx_segregated_full : ∃ image, buildElf64ExeWx [0xC3] [1, 2] 0 = .ok image ∧
    ∃ text rw, Segregated image [0xC3] [1, 2] 0 text rw := by
  obtain ⟨image, ok⟩ := (wx_packs [0xC3] [1, 2]).written (by decide)
  exact ⟨image, ok, wx_segregated ok⟩

end Aclm.Image
