import Aclm.Image.Protection

/-! The sections of the image with debug information: what a reader of the file finds in them. -/

set_option autoImplicit false

namespace Aclm.Image

open X64 (Byte leBytes leBytes_length)
open X64.Elf

/-! ### Blocks behind one another -/

/-- The blocks, each behind padding that leads to its offset. -/
def stack : List (Nat × List Byte) → List Byte → List Byte
  | [], blob => blob
  | (n, bs) :: rest, blob => stack rest (padTo n 0 blob ++ bs)

/-- Every block starts where the one before it has ended, or later. -/
def Fits : Nat → List (Nat × List Byte) → Prop
  | _, [] => True
  | start, (n, bs) :: rest => start ≤ n ∧ Fits (n + bs.length) rest

theorem prefix_stack (blocks : List (Nat × List Byte)) (blob : List Byte) : blob <+: stack blocks blob := by
  induction blocks generalizing blob with
  | nil => exact List.prefix_refl _
  | cons block rest ih => exact ((prefix_padTo _ 0 blob).trans (List.prefix_append _ _)).trans (ih _)

theorem padTo_append_length {n : Nat} {blob bs : List Byte} (room : blob.length ≤ n) :
    (padTo n 0 blob ++ bs).length = n + bs.length := by
  rw [List.length_append, padTo_length, Nat.max_eq_left room]

theorem stack_stands {blocks : List (Nat × List Byte)} {blob : List Byte} (fits : Fits blob.length blocks) :
    ∀ block ∈ blocks, blob.length ≤ block.1 ∧ StandsAt (stack blocks blob) block.1 block.2 ∧
      block.1 + block.2.length ≤ (stack blocks blob).length := by
  induction blocks generalizing blob with
  | nil => simp
  | cons first rest ih =>
    obtain ⟨n, bs⟩ := first
    obtain ⟨room, fits⟩ := fits
    have size : (padTo n 0 blob ++ bs).length = n + bs.length := padTo_append_length room
    rw [← size] at fits
    rintro block (_ | ⟨_, member⟩)
    · have more : padTo n 0 blob ++ bs <+: stack rest (padTo n 0 blob ++ bs) := prefix_stack rest _
      have stands : StandsAt (padTo n 0 blob ++ bs ++ []) n bs :=
        StandsAt.of_append (by rw [padTo_length, Nat.max_eq_left room])
      rw [List.append_nil] at stands
      exact ⟨room, stands.mono (by omega) more, size ▸ more.length_le⟩
    · obtain ⟨after, stands, inside⟩ := ih fits block member
      exact ⟨by omega, stands, inside⟩

theorem le_align_eight (n : Nat) : n ≤ align 8 n := by
  unfold align
  omega

theorem heads_of_sectionHeader {name type offset size : Nat} {bs : List Byte}
    (ok : sectionHeader name type offset size = .ok bs) (small : name < 256 ^ 4 ∧ type < 256 ^ 4) :
    Heads bs ⟨name, type, 0, 0, offset, size⟩ := by
  simp only [sectionHeader, bind_eq_ok, pack_ok] at ok
  obtain ⟨o, ⟨ho, rfl⟩, s, ⟨hs, rfl⟩, shape⟩ := ok
  cases shape
  refine ⟨by simp, fun rest => ?_⟩
  simp (disch := simp) only [section64, List.append_assoc, field_skip, field_leBytes, leBytes_length, Nat.reduceSub,
    Nat.zero_add, Nat.mod_eq_of_lt ho, Nat.mod_eq_of_lt hs, Nat.mod_eq_of_lt small.1, Nat.mod_eq_of_lt small.2,
    Nat.sub_self]
  rfl

/-! ### What the sections hold -/

/-- A unit: the length of what follows the length stands in front of it. -/
def Unit (bs : List Byte) : Prop := field bs 0 4 + 4 = bs.length

/-- The fields after `header_length` and the line program behind them. -/
structure LineUnit (bs : List Byte) (prologue program : List Byte) : Prop where
  length : Unit bs
  version : field bs 4 2 = 4
  header : (bs.drop 10).take (field bs 6 4) = prologue
  program : bs.drop (10 + field bs 6 4) = program

/-- `emit_ext` and the opcodes that `build_elf64_exe_debug` writes behind the header. -/
def lineProgram (lineEntries : List (Nat × Int)) : List Byte :=
  extended 2 (leBytes 8 codeBase) ++ [4] ++ uleb 1 ++ lineRows (sortedByOffset lineEntries) 1 0 ++ extended 1 []

theorem unit_of_pack {n : Nat} {bs front : List Byte} (packed : pack 4 n = .ok front) (size : n = bs.length) :
    Unit (front ++ bs) := by
  obtain ⟨small, rfl⟩ := pack_ok.mp packed
  rw [Unit, field_leBytes, Nat.mod_eq_of_lt small, List.length_append, leBytes_length, size, Nat.add_comm]

theorem lineUnit_of_front {front prologue program : List Byte} (size : front.length = 10)
    (whole : Unit (front ++ (prologue ++ program)))
    (version : field (front ++ (prologue ++ program)) 4 2 = 4)
    (read : field (front ++ (prologue ++ program)) 6 4 = prologue.length) :
    LineUnit (front ++ (prologue ++ program)) prologue program where
  length := whole
  version := version
  header := by rw [read, List.drop_left' size, List.take_left]
  program := by rw [read, ← List.drop_drop, List.drop_left' size, List.drop_left]

theorem debugLine_unit {sourcePath : String} {lineEntries : List (Nat × Int)} {line : List Byte}
    (ok : debugLine sourcePath lineEntries = .ok line) :
    LineUnit line (linePrologue sourcePath) (lineProgram lineEntries) := by
  simp only [debugLine, bind_eq_ok] at ok
  obtain ⟨headerLength, packed, unitLength, packed', shape⟩ := ok
  have whole := unit_of_pack packed' rfl
  have front : (unitLength ++ leBytes 2 4 ++ headerLength).length = 10 := by
    rw [(pack_ok.mp packed).2, (pack_ok.mp packed').2]
    simp
  have order : unitLength ++ (leBytes 2 4 ++ headerLength ++ linePrologue sourcePath ++ lineProgram lineEntries) =
      unitLength ++ leBytes 2 4 ++ headerLength ++ (linePrologue sourcePath ++ lineProgram lineEntries) := by
    simp only [List.append_assoc]
  have read (rest : List Byte) : field (unitLength ++ leBytes 2 4 ++ headerLength ++ rest) 4 2 = 4 ∧
      field (unitLength ++ leBytes 2 4 ++ headerLength ++ rest) 6 4 = (linePrologue sourcePath).length := by
    obtain ⟨small, rfl⟩ := pack_ok.mp packed
    obtain ⟨-, rfl⟩ := pack_ok.mp packed'
    simp (disch := simp) only [List.append_assoc, field_skip, leBytes_length, Nat.reduceSub, field_leBytes]
    exact ⟨rfl, Nat.mod_eq_of_lt small⟩
  cases shape
  have whole : Unit (unitLength ++ (leBytes 2 4 ++ headerLength ++ linePrologue sourcePath ++
    lineProgram lineEntries)) := whole
  rw [order] at whole
  exact order ▸ lineUnit_of_front front whole (read _).1 (read _).2

theorem debugInfo_unit {sourcePath : String} {codeLen : Nat} {info : List Byte}
    (ok : debugInfo sourcePath codeLen = .ok info) : Unit info := by
  simp only [debugInfo, bind_eq_ok] at ok
  obtain ⟨high, -, unitLength, packed, shape⟩ := ok
  cases shape
  exact unit_of_pack packed rfl

/-! ### The file -/

/-- Where the loaded part of the file ends. -/
def payloadEnd (code data : List Byte) : Nat := EHDR_SIZE + PHDR_SIZE + code.length + data.length

/-- The four sections as a reader finds them by way of the section headers. -/
structure DebugSections (image code data : List Byte) (sourcePath : String) (lineEntries : List (Nat × Int))
    (line info abbr strings : Section) : Prop where
  table : sections64 image = [⟨0, 0, 0, 0, 0, 0⟩, line, info, abbr, strings]
  names : (sections64 image).map (Section.named image) =
    ["", ".debug_line", ".debug_info", ".debug_abbrev", ".shstrtab"].map fun name => some (utf8 name)
  lineHeld : debugLine sourcePath lineEntries = .ok (line.contents image)
  infoHeld : debugInfo sourcePath code.length = .ok (info.contents image)
  abbrHeld : abbr.contents image = debugAbbrev
  stringsHeld : strings.contents image = shstr
  apart : [line, info, abbr, strings].Pairwise Section.Disjoint
  aligned : ∀ s ∈ [line, info, abbr, strings], s.offset % 8 = 0
  inside : ∀ s ∈ [line, info, abbr, strings],
    payloadEnd code data ≤ s.offset ∧ s.offset + s.size ≤ image.length
  lineUnit : LineUnit (line.contents image) (linePrologue sourcePath) (lineProgram lineEntries)
  infoUnit : Unit (info.contents image)

/-- The segment is the file up to the end of the data: the headers, the code and the data. -/
structure LoadsPayload (image code data : List Byte) : Prop where
  only : loads image = [⟨1, 7, 0, LOAD_VADDR, payloadEnd code data, payloadEnd code data⟩]
  payload : ∃ headers, headers.length = EHDR_SIZE + PHDR_SIZE ∧
    image.take (payloadEnd code data) = headers ++ code ++ data

/-- The names stand in the string table where the section headers say. -/
theorem names_resolve : [0, 1, 13, 25, 39].map (cstring shstr) =
    ["", ".debug_line", ".debug_info", ".debug_abbrev", ".shstrtab"].map fun name => some (utf8 name) := by
  decide +kernel

section Built

variable {code data image : List Byte} {sourcePath : String} {lineEntries : List (Nat × Int)} {entry : Nat}

theorem payload_loaded (ok : buildElf64ExeDebug code data sourcePath lineEntries entry = .ok image) :
    LoadsPayload image code data := by
  simp only [buildElf64ExeDebug, bind_eq_ok] at ok
  obtain ⟨line, -, info, -, s0, -, s1, -, s2, -, s3, -, s4, -, ehdr, ehdrOk, phdr, phdrOk, shape⟩ := ok
  have leads := leads_of_ehdr64 ehdrOk (show 1 < 65536 by decide)
  obtain ⟨length, header⟩ := header64_of_phdr64 phdrOk (by decide)
  have front : (ehdr ++ phdr ++ code ++ data).length = payloadEnd code data := by
    simp only [List.length_append, leads.length, length]
    rfl
  have shape := Except.ok.inj shape
  change stack [(_, shstr), (_, line), (_, info), (_, debugAbbrev), (_, [s0, s1, s2, s3, s4].flatten)]
    (ehdr ++ phdr ++ code ++ data) = image at shape
  obtain ⟨rest, begun⟩ : ehdr ++ phdr ++ code ++ data <+: image := shape ▸ prefix_stack _ _
  refine ⟨?_, ehdr ++ phdr, ?_, ?_⟩
  · rw [← begun, List.append_assoc, List.append_assoc (ehdr ++ phdr)]
    exact loads_one leads header rfl
  · rw [List.length_append, leads.length, length]
    rfl
  · rw [← begun]
    exact List.take_left' front

theorem sections_found (ok : buildElf64ExeDebug code data sourcePath lineEntries entry = .ok image) :
    ∃ line info abbr strings, DebugSections image code data sourcePath
      (if lineEntries = [] then [(0, 1)] else lineEntries) line info abbr strings := by
  simp only [buildElf64ExeDebug, bind_eq_ok] at ok
  obtain ⟨line, lineOk, info, infoOk, s0, ok0, s1, ok1, s2, ok2, s3, ok3, s4, ok4, ehdr, ehdrOk, phdr, phdrOk,
    shape⟩ := ok
  have leads := leads_of_ehdr64 ehdrOk (show 1 < 65536 by decide)
  have announces := announces_of_ehdr64 ehdrOk
  obtain ⟨length, -⟩ := header64_of_phdr64 phdrOk (by decide)
  have heads := List.Forall₂.cons (heads_of_sectionHeader ok0 (by decide))
    (.cons (heads_of_sectionHeader ok1 (by decide)) (.cons (heads_of_sectionHeader ok2 (by decide))
    (.cons (heads_of_sectionHeader ok3 (by decide)) (.cons (heads_of_sectionHeader ok4 (by decide)) .nil))))
  have front : (ehdr ++ phdr ++ code ++ data).length = payloadEnd code data := by
    simp only [List.length_append, leads.length, length]
    rfl
  have shape := Except.ok.inj shape
  change stack [(_, shstr), (_, line), (_, info), (_, debugAbbrev), (_, [s0, s1, s2, s3, s4].flatten)]
    (ehdr ++ phdr ++ code ++ data) = image at shape
  change (ehdr ++ phdr ++ code ++ data).length = EHDR_SIZE + PHDR_SIZE + code.length + data.length at front
  generalize stop : EHDR_SIZE + PHDR_SIZE + code.length + data.length = payload at *
  have step (n : Nat) : n ≤ align 8 n ∧ 8 ∣ align 8 n := ⟨le_align_eight n, align_dvd 8 n⟩
  have room₁ := step payload
  generalize align 8 payload = o₁ at *
  have room₂ := step (o₁ + shstr.length)
  generalize align 8 (o₁ + shstr.length) = o₂ at *
  have room₃ := step (o₂ + line.length)
  generalize align 8 (o₂ + line.length) = o₃ at *
  have room₄ := step (o₃ + info.length)
  generalize align 8 (o₃ + info.length) = o₄ at *
  have room₅ := step (o₄ + debugAbbrev.length)
  generalize align 8 (o₄ + debugAbbrev.length) = o₅ at *
  have fits : Fits (ehdr ++ phdr ++ code ++ data).length [(o₁, shstr), (o₂, line), (o₃, info), (o₄, debugAbbrev),
      (o₅, [s0, s1, s2, s3, s4].flatten)] :=
    ⟨by omega, by omega, by omega, by omega, by omega, trivial⟩
  have stands := stack_stands fits
  obtain ⟨rest, begun⟩ := prefix_stack [(o₁, shstr), (o₂, line), (o₃, info), (o₄, debugAbbrev),
    (o₅, [s0, s1, s2, s3, s4].flatten)] (ehdr ++ phdr ++ code ++ data)
  rw [shape] at stands begun
  rw [front] at stands
  simp only [List.forall_mem_cons, List.not_mem_nil, false_imp_iff, implies_true, and_true] at stands
  obtain ⟨⟨after₁, stands₁, inside₁⟩, ⟨after₂, stands₂, inside₂⟩, ⟨after₃, stands₃, inside₃⟩, ⟨after₄, stands₄, inside₄⟩,
    -, stands₅, inside₅⟩ := stands
  obtain ⟨pre, post, split, size⟩ := stands₅.split (by omega)
  -- The header at the front of the file leads to the segment and to the section headers.
  have whole : image = ehdr ++ (phdr ++ code ++ data ++ rest) := by
    rw [← begun]
    simp only [List.append_assoc]
  have shoff : field image 40 8 = o₅ := whole ▸ announces.shoff _
  have shentsize : field image 58 2 = 64 := whole ▸ announces.shentsize _
  have shnum : field image 60 2 = 5 := whole ▸ announces.shnum _
  have shstrndx : field image 62 2 = 4 := whole ▸ announces.shstrndx _
  have table := @section64_table pre _ _ heads post
  rw [size, ← split] at table
  have sections : sections64 image = [⟨0, 0, 0, 0, 0, 0⟩, ⟨1, 1, 0, 0, o₂, line.length⟩, ⟨13, 1, 0, 0, o₃, info.length⟩,
      ⟨25, 1, 0, 0, o₄, debugAbbrev.length⟩, ⟨39, 3, 0, 0, o₁, shstr.length⟩] := by
    rw [sections64, shoff, shentsize, shnum]
    exact table
  have named (s : Section) : s.named image = cstring shstr s.name := by
    rw [Section.named, sections, shstrndx]
    exact congrArg (fun strings => cstring strings s.name) stands₁.take
  have lineHeld : Section.contents image ⟨1, 1, 0, 0, o₂, line.length⟩ = line := stands₂.take
  have infoHeld : Section.contents image ⟨13, 1, 0, 0, o₃, info.length⟩ = info := stands₃.take
  refine ⟨_, _, _, _, sections, ?_, ?_, ?_, stands₄.take, stands₁.take, ?_, ?_, ?_, ?_, ?_⟩
  · have resolved : Section.named image = cstring shstr ∘ Section.name := by
      funext s
      exact named s
    rw [sections, resolved, ← List.map_map]
    exact names_resolve
  · rw [lineHeld]
    exact lineOk
  · rw [infoHeld]
    exact infoOk
  · simp only [List.pairwise_cons, List.forall_mem_cons, Section.Disjoint, List.not_mem_nil, false_imp_iff, implies_true,
      List.Pairwise.nil, and_true]
    omega
  · simp only [List.forall_mem_cons, List.not_mem_nil, false_imp_iff, implies_true, and_true]
    omega
  · simp only [List.forall_mem_cons, List.not_mem_nil, false_imp_iff, implies_true, and_true, payloadEnd, stop]
    omega
  · rw [lineHeld]
    exact debugLine_unit lineOk
  · rw [infoHeld]
    exact debugInfo_unit infoOk

theorem debug_sections (ok : buildElf64ExeDebug code data sourcePath lineEntries entry = .ok image) :
    LoadsPayload image code data ∧ ∃ line info abbr strings, DebugSections image code data sourcePath
      (if lineEntries = [] then [(0, 1)] else lineEntries) line info abbr strings :=
  ⟨payload_loaded ok, sections_found ok⟩

end Built

theorem debug_sections_small : ∃ image, buildElf64ExeDebug [0xC3] [1, 2, 3] "source.aclm" [(0, 1)] 0 = .ok image ∧
    LoadsPayload image [0xC3] [1, 2, 3] ∧ ∃ line info abbr strings,
      DebugSections image [0xC3] [1, 2, 3] "source.aclm" [(0, 1)] line info abbr strings := by
  obtain ⟨image, ok⟩ := (debug_packs [0xC3] [1, 2, 3] [(0, 1)] (List.cons_ne_nil _ _)).written
    (small_fits ([0xC3], [1, 2, 3], [(0, 1)]) (by simp))
  exact ⟨image, ok, debug_sections ok⟩

end Aclm.Image
