import Aclm.Codegen.Targets
import Aclm.Image.Loading

/-! The addresses the code is linked with and the addresses the image is loaded at. -/

set_option autoImplicit false

namespace Aclm.Codegen

open X64 (Byte leValue toSigned)
open X64.Elf (address field Placement)
open Encoder
open Image (LOAD_ADDR LOAD_VADDR STOP payloadOffset wxCodeDataFileOffsets)

/-! ### Where the writers put code and data -/

section Layout

variable (opts : Options) (g : CodeGenerator) (codeLen : Nat)

/-- The address that the image writer of these options loads the start of the file at. -/
def loadBase : Nat := if g.baremetal then LOAD_ADDR else LOAD_VADDR

/-- The offset of the code in the image. -/
def codeOffset : Nat :=
  if g.baremetal then payloadOffset
  else if opts.debug then 120
  else if opts.wx then (wxCodeDataFileOffsets codeLen).1
  else 120

/-- The offset of the data in the image; a boot image without code has the stop sequence in its place. -/
def dataOffset : Nat :=
  if g.baremetal then payloadOffset + if codeLen = 0 then STOP.length else codeLen
  else if opts.debug then 120 + codeLen
  else if opts.wx then (wxCodeDataFileOffsets codeLen).2
  else 120 + codeLen

end Layout

theorem placement_baremetal {code data image : List Byte} (ok : buildBaremetalKernel code data = .ok image) :
    Placement image code data payloadOffset (payloadOffset + if code.length = 0 then STOP.length else code.length)
      (LOAD_ADDR + payloadOffset)
      (LOAD_ADDR + (payloadOffset + if code.length = 0 then STOP.length else code.length)) := by
  rw [buildBaremetalKernel] at ok
  by_cases empty : code = []
  · subst empty
    exact (Image.placement_kernel ok).nil_code
  · rw [if_neg empty] at ok
    rw [if_neg (by simpa using empty)]
    exact Image.placement_kernel ok

theorem placement_of_writeImage {opts : Options} {g : CodeGenerator} {a : Assembler} {image : List Byte}
    (ok : writeImage opts g a = .ok image) :
    Placement image a.code g.dataBytes (codeOffset opts g a.code.length) (dataOffset opts g a.code.length)
      (loadBase g + codeOffset opts g a.code.length) (loadBase g + dataOffset opts g a.code.length) := by
  unfold writeImage at ok
  unfold codeOffset dataOffset loadBase
  split at ok
  · next bare =>
    simp only [bare, if_true]
    exact placement_baremetal ok
  next notBare =>
  split at ok
  · next debug =>
    simp only [notBare, debug, if_true]
    exact Image.placement_symtab ok
  next notDebug =>
  split at ok
  · next wx =>
    simp only [notBare, notDebug, wx, if_true]
    exact Image.placement_wx ok
  · next notWx =>
    simp only [notBare, notDebug, notWx]
    exact Image.placement_exe ok

/-! ### A relocation -/

/-- The address at which the label or datum that a name stands for is loaded. -/
inductive LoadedTarget (image : List Byte) (g : CodeGenerator) (a : Assembler) (codeOff dataOff : Nat) :
    String → Int → Prop where
  | label {name : String} {o at_ : Nat} (found : a.labels.get? name = some o)
      (loaded : address image (codeOff + o) = some at_) : LoadedTarget image g a codeOff dataOff name at_
  | datum {name : String} {off : Int} {base : Nat} (found : g.dataLayout.get? name = some off)
      (loaded : address image dataOff = some base) :
      LoadedTarget image g a codeOff dataOff (data name) (base + off)

/-- The linked number in the field of a relocation, read from the image, leads from the address of the next
instruction to that of its target. -/
def Reaches (image : List Byte) (g : CodeGenerator) (a : Assembler) (codeOff dataOff : Nat) (r : Reloc) : Prop :=
  ∃ (next : Nat) (target : Int), address image (codeOff + (r.offset + 4)) = some next ∧
    LoadedTarget image g a codeOff dataOff r.target target ∧
    next + toSigned 32 (field image (codeOff + r.offset) 4) = target

section Reloc

variable {image : List Byte} {opts : Options} {g : CodeGenerator} {a linked : Assembler}
  {codeOff dataOff codeBase dataBase : Nat} {r : Reloc} (done : Finished g a)
  (link : a.link (targetOffsets opts g a) = .ok linked)
  (placed : Placement image linked.code g.dataBytes codeOff dataOff codeBase dataBase) (member : r ∈ a.relocs)
include done link placed member

theorem linked_field : ∃ v, (targetOffsets opts g a).get? r.target = some v ∧
    address image (codeOff + (r.offset + 4)) = some (codeBase + (r.offset + 4)) ∧
    ((codeBase + (r.offset + 4) : Nat) : Int) + toSigned 32 (field image (codeOff + r.offset) 4) = codeBase + v := by
  obtain ⟨length, -, fields⟩ := Assembler.link_fields done.run link
  have inside := (Assembler.run_fields done.run).2 r member
  obtain ⟨v, found, distance⟩ := fields r member
  rw [placed.codeStands.field (by omega)]
  refine ⟨v, found, placed.codeAddress _ (by omega), ?_⟩
  unfold field
  push_cast
  omega

/-- A code label is reached in every layout. -/
theorem reaches_label {o : Nat} (label : a.labels.get? r.target = some o) :
    Reaches image g a codeOff dataOff r := by
  obtain ⟨v, found, next, distance⟩ := linked_field done link placed member
  have length := (Assembler.link_fields done.run link).1
  have inside := Assembler.label_le done.run label
  have offset := @Finished.target_label opts g a done _ _ label
  obtain rfl : v = o := Option.some.inj (found.symm.trans offset)
  exact ⟨_, _, next, .label label (placed.codeAddress o (by omega)), by rw [distance]; push_cast; rfl⟩

/-- A datum is reached exactly when the linker's gap is that of the layout. -/
theorem reaches_datum {name : String} {off : Int} (target : r.target = data name)
    (datum : g.dataLayout.get? name = some off) :
    Reaches image g a codeOff dataOff r ↔ dataBase = codeBase + a.code.length + dataGap opts a := by
  obtain ⟨v, found, next, distance⟩ := linked_field done link placed member
  have offset := @Finished.target_data opts g a done _ _ datum
  rw [target, offset] at found
  obtain rfl := Option.some.inj found
  have start := placed.dataAddress 0 (Nat.zero_le _)
  constructor
  · rintro ⟨next', t, address, loaded, reached⟩
    obtain rfl := Option.some.inj (next.symm.trans address)
    rw [distance] at reached
    generalize same : r.target = name' at loaded
    cases loaded with
    | label label =>
      have code := done.codeLabel label
      rw [← same, target, CodeLabel, data_startsWith] at code
      cases code
    | @datum name' off' base found loaded =>
      obtain rfl := data_injective (target.symm.trans same)
      obtain rfl := Option.some.inj (datum.symm.trans found)
      obtain rfl := Option.some.inj (start.symm.trans loaded)
      omega
  · intro fits
    have loaded : LoadedTarget image g a codeOff dataOff r.target (dataBase + off) := by
      rw [target]
      exact .datum datum start
    refine ⟨_, _, next, loaded, ?_⟩
    rw [distance, fits]
    push_cast
    omega

end Reloc

/-! ### The gap -/

theorem wxPad_eq_zero (codeLen : Nat) : wxPad codeLen = 0 ↔ 4096 ∣ codeLen := by
  have start : Image.align Image.PAGE (Image.EHDR_SIZE + 2 * Image.PHDR_SIZE) = 4096 := by decide
  simp only [wxPad, wxCodeDataFileOffsets, start]
  unfold Image.align Image.PAGE
  omega

/-- The layout of the image has the linker's gap, or that gap is empty. -/
theorem layout_gap (opts : Options) (g : CodeGenerator) (a : Assembler) (code : a.code.length ≠ 0) :
    loadBase g + dataOffset opts g a.code.length =
        loadBase g + codeOffset opts g a.code.length + a.code.length + dataGap opts a ↔
      (opts.wx = true → opts.debug = true ∨ g.baremetal = true → 4096 ∣ a.code.length) := by
  have pad := wxPad_eq_zero a.code.length
  unfold dataOffset codeOffset dataGap
  cases wx : opts.wx with
  | false =>
    simp only [Bool.false_eq_true, if_false, false_imp_iff, iff_true, code]
    split
    · omega
    · split <;> omega
  | true =>
    cases bare : g.baremetal with
    | true =>
      simp only [if_true, if_false, code, or_true, true_imp_iff]
      omega
    | false =>
      cases debug : opts.debug with
      | true =>
        simp only [if_true, Bool.false_eq_true, if_false, or_false, true_imp_iff]
        omega
      | false =>
        have order := Image.le_align ((wxCodeDataFileOffsets a.code.length).1 + a.code.length)
        change _ ≤ (wxCodeDataFileOffsets a.code.length).2 at order
        simp only [if_true, Bool.false_eq_true, if_false, or_self, false_imp_iff, imp_true_iff, iff_true, wxPad]
        omega

/-- Where a relocation of a finished emission leads in the image that is written for it. -/
theorem reaches_iff {opts : Options} {g : CodeGenerator} {a linked : Assembler} {image : List Byte} {r : Reloc}
    (done : Finished g a) (link : a.link (targetOffsets opts g a) = .ok linked)
    (written : writeImage opts g linked = .ok image) (member : r ∈ a.relocs) :
    Reaches image g a (codeOffset opts g a.code.length) (dataOffset opts g a.code.length) r ↔
      (opts.wx = true → opts.debug = true ∨ g.baremetal = true → 4096 ∣ a.code.length ∨ CodeLabel r.target) := by
  have placed := placement_of_writeImage written
  rw [(Assembler.link_fields done.run link).1] at placed
  obtain ⟨v, found, -⟩ := linked_field done link placed member
  have inside := (Assembler.run_fields done.run).2 r member
  rcases target_cases found with ⟨o, label⟩ | ⟨name, off, target, datum⟩
  · have reached := reaches_label done link placed member label
    simp [reached, done.codeLabel label]
  · have notCode : ¬CodeLabel r.target := by
      rw [target, CodeLabel, data_startsWith]
      decide
    rw [reaches_datum done link placed member target datum, layout_gap opts g a (by omega)]
    simp only [notCode, or_false]

/-! ### All relocations of an image -/

/-- Code and data are in the image where the writer of these options puts them, and every relocation that is
linked leads to its target as the image is loaded. -/
def AddressConsistent (opts : Options) (p : Program) (image : List Byte) : Prop :=
  ∀ g a linked, emitted opts p = .ok (g, a) → a.link (targetOffsets opts g a) = .ok linked →
    Placement image linked.code g.dataBytes (codeOffset opts g a.code.length) (dataOffset opts g a.code.length)
        (loadBase g + codeOffset opts g a.code.length) (loadBase g + dataOffset opts g a.code.length) ∧
      ∀ r ∈ a.relocs, Reaches image g a (codeOffset opts g a.code.length) (dataOffset opts g a.code.length) r

/-- The gap that the linker leaves for the W^X layout is one of the layout, or empty, or not referred across. -/
def GapFits (opts : Options) (p : Program) : Prop :=
  ∀ g a, emitted opts p = .ok (g, a) → opts.wx = true → opts.debug = true ∨ g.baremetal = true →
    4096 ∣ a.code.length ∨ ∀ r ∈ a.relocs, CodeLabel r.target

theorem addresses_consistent (opts : Options) (p : Program) (image : List Byte) (ok : generate opts p = .ok image) :
    AddressConsistent opts p image ↔ GapFits opts p := by
  obtain ⟨⟨g, a⟩, emission, rest⟩ := bind_eq_ok.mp ok
  obtain ⟨linked, link, rest⟩ := bind_eq_ok.mp rest
  obtain ⟨-, -, written⟩ := bind_eq_ok.mp rest
  have done := finished_of_emitted emission
  have reaches {r : Reloc} := @reaches_iff opts g a linked image r done link written
  constructor
  · intro consistent g' a' emission' wx other
    obtain ⟨rfl, rfl⟩ : g = g' ∧ a = a' := by simpa using emission.symm.trans emission'
    have reached := (consistent g a linked emission link).2
    by_cases whole : 4096 ∣ a.code.length
    · exact .inl whole
    · exact .inr fun r member => ((reaches member).mp (reached r member) wx other).resolve_left whole
  · intro fits g' a' linked' emission' link'
    obtain ⟨rfl, rfl⟩ : g = g' ∧ a = a' := by simpa using emission.symm.trans emission'
    obtain rfl : linked = linked' := Except.ok.inj (link.symm.trans link')
    have placed := placement_of_writeImage written
    rw [(Assembler.link_fields done.run link).1] at placed
    exact ⟨placed, fun r member =>
      (reaches member).mpr fun wx other => (fits g a emission wx other).imp_right fun codes => codes r member⟩

/-- One datum, and its address. -/
def oneDatum : List Stmt := [.op 1 (.dataAlloc "x" (.bytes 8)), .op 2 (.cpuBin .set "reg1" (.ident "x"))]

def wxBuild : Options := ⟨false, true, false⟩

theorem addresses_consistent_oneDatum :
    ∃ image, generate wxBuild ⟨oneDatum⟩ = .ok image ∧ AddressConsistent wxBuild ⟨oneDatum⟩ image := by
  have writes : (generate wxBuild ⟨oneDatum⟩).isOk = true := by decide
  have hosted : (emitted wxBuild ⟨oneDatum⟩).map (fun e => e.1.baremetal) = .ok false := by decide
  obtain ⟨image, ok⟩ := exists_of_isOk writes
  refine ⟨image, ok, (addresses_consistent _ _ _ ok).mpr fun g a emission _ other => ?_⟩
  rw [emission] at hosted
  rcases other with debug | bare
  · cases debug
  · rw [show g.baremetal = false from Except.ok.inj hosted] at bare
    cases bare

def bareDatum : Program := ⟨.op 0 .targetBaremetal :: oneDatum⟩

/-- On bare metal the W^X option moves the linked addresses of the data and not the data. -/
theorem addresses_inconsistent_baremetal : ¬∀ opts p image, generate opts p = .ok image →
    AddressConsistent opts p image := by
  intro consistent
  have evaluates : (do
      let out ← emitted wxBuild bareDatum
      let linked ← out.2.link (targetOffsets wxBuild out.1 out.2)
      runAsserts out.1 linked
      .ok (out.1.baremetal, linked.code.length, out.1.dataBytes.length, out.2.code.length, out.2.relocs)) =
        Except.ok (true, 7, 8, 7, [⟨3, data "x"⟩]) := by decide
  obtain ⟨⟨g, a⟩, emission, rest⟩ := bind_eq_ok.mp evaluates
  obtain ⟨linked, link, rest⟩ := bind_eq_ok.mp rest
  obtain ⟨u, asserts, rest⟩ := bind_eq_ok.mp rest
  simp only [Except.ok.injEq, Prod.mk.injEq] at rest
  obtain ⟨bare, linkedLength, dataLength, codeLength, relocs⟩ := rest
  have nonempty : linked.code ≠ [] := fun empty => by rw [empty] at linkedLength; cases linkedLength
  obtain ⟨image, kernel⟩ := Image.kernel_written linked.code g.dataBytes (by rw [linkedLength, dataLength]; decide)
  have written : writeImage wxBuild g linked = .ok image := by
    rw [writeImage, if_pos bare, buildBaremetalKernel, if_neg nonempty, kernel]
  have ok : generate wxBuild bareDatum = .ok image :=
    bind_eq_ok.mpr ⟨_, emission, bind_eq_ok.mpr ⟨_, link, bind_eq_ok.mpr ⟨_, asserts, written⟩⟩⟩
  obtain ⟨-, reaches⟩ := consistent wxBuild bareDatum image ok g a linked emission link
  have member : ⟨3, data "x"⟩ ∈ a.relocs := by rw [relocs]; exact List.mem_cons_self
  have fits := (reaches_iff (finished_of_emitted emission) link written member).mp (reaches _ member) rfl (.inr bare)
  rw [codeLength] at fits
  exact absurd fits (by decide)

end Aclm.Codegen
