import Aclm.Image.Loading

/-! How large code and data may be: the sizes and offsets that the headers of an image have room for. -/

set_option autoImplicit false

namespace Aclm.Image

open X64 (Byte leBytes leBytes_length)

/-- The bytes are written if `room` holds; otherwise a number has no room in its field. -/
structure Packs {α : Type} (room : Prop) (x : Except PyErr α) : Prop where
  written : room → ∃ a, x = .ok a
  full : ¬ room → ∃ msg, x = .error (.structError msg)

namespace Packs

variable {α β : Type} {p q : Prop}

theorem ok (a : α) : Packs True (.ok a : Except PyErr α) := ⟨fun _ => ⟨a, rfl⟩, fun no => (no trivial).elim⟩

theorem pack (n v : Nat) : Packs (v < 256 ^ n) (pack n v) := by
  unfold Image.pack
  constructor
  · intro room
    exact ⟨_, if_pos room⟩
  · intro full
    exact ⟨_, if_neg full⟩

theorem bind {x : Except PyErr α} {f : α → Except PyErr β} (first : Packs p x) (rest : ∀ a, x = .ok a → Packs q (f a)) :
    Packs (p ∧ q) (x >>= f) := by
  by_cases room : p
  · obtain ⟨a, done⟩ := first.written room
    have later := rest a done
    rw [done, ok_bind]
    exact ⟨fun both => later.written both.2, fun full => later.full fun q => full ⟨room, q⟩⟩
  · obtain ⟨msg, raised⟩ := first.full room
    rw [raised]
    exact ⟨fun both => (room both.1).elim, fun _ => ⟨msg, rfl⟩⟩

theorem iff {x : Except PyErr α} (packs : Packs p x) (same : q ↔ p) : Packs q x :=
  ⟨fun room => packs.written (same.mp room), fun full => packs.full fun room => full (same.mpr room)⟩

end Packs

theorem ehdr64_packs (h : Ehdr) : Packs (h.entry < 2 ^ 64 ∧ h.shoff < 2 ^ 64) (ehdr64 h) :=
  (Packs.bind (.pack 8 h.entry) fun _ _ => .bind (.pack 8 h.shoff) fun _ _ => .ok _).iff (by simp)

theorem phdr64_packs (flags offset vaddr size : Nat) :
    Packs (offset < 2 ^ 64 ∧ vaddr < 2 ^ 64 ∧ size < 2 ^ 64) (phdr64 flags offset vaddr size) :=
  (Packs.bind (.pack 8 offset) fun _ _ => .bind (.pack 8 vaddr) fun _ _ => .bind (.pack 8 size) fun _ _ => .ok _).iff
    (by simp)

theorem sectionHeader_packs (name type offset size : Nat) :
    Packs (offset < 2 ^ 64 ∧ size < 2 ^ 64) (sectionHeader name type offset size) :=
  (Packs.bind (.pack 8 offset) fun _ _ => .bind (.pack 8 size) fun _ _ => .ok _).iff (by simp)

section Writers

variable (code data : List Byte)

theorem exe_packs : Packs (120 + code.length + data.length < 2 ^ 64) (buildElf64Exe code data 0) := by
  refine (Packs.bind (ehdr64_packs _) fun _ _ => .bind (phdr64_packs _ _ _ _) fun _ _ => .ok _).iff ?_
  simp only [EHDR_SIZE, PHDR_SIZE, LOAD_VADDR, and_true]
  omega

theorem wx_packs : Packs (LOAD_VADDR + align PAGE (0x1000 + code.length) < 2 ^ 64 ∧ data.length < 2 ^ 64)
    (buildElf64ExeWx code data 0) := by
  refine (Packs.bind (ehdr64_packs _) fun _ _ => .bind (phdr64_packs _ _ _ _) fun _ _ => .bind (phdr64_packs _ _ _ _)
    fun _ _ => .ok _).iff ?_
  have larger := le_align (0x1000 + code.length)
  have start : align PAGE (EHDR_SIZE + 2 * PHDR_SIZE) = 0x1000 := by decide
  simp only [start, LOAD_VADDR, and_true]
  omega

theorem kernel_packs : Packs (16467 + code.length + data.length < 2 ^ 32) (buildLongModeKernel code data LOAD_ADDR) := by
  obtain ⟨boot, length, same⟩ := kernel_shape code data
  rw [same]
  refine (Packs.bind (.pack 4 _) fun _ _ => .bind (.pack 4 _) fun _ _ => .bind (.pack 4 _) fun _ _ => .ok _).iff ?_
  have header : buildMultibootHeader.length = 12 := by decide
  simp only [header, LOAD_ADDR, STOP, List.length_append, List.length_cons, List.length_nil, length,
    and_true]
  omega

/-! ### Debug sections -/

/-- The length of the line program with its header, but for the length field in front. -/
def lineLength (sourcePath : String) (lineEntries : List (Nat × Int)) : Nat :=
  6 + (linePrologue sourcePath).length + (extended 2 (leBytes 8 codeBase) ++ [4] ++ uleb 1 ++
    lineRows (sortedByOffset lineEntries) 1 0 ++ extended 1 []).length

theorem source_lengths : (linePrologue "source.aclm").length = 35 ∧ (utf8 "source.aclm").length = 11 ∧ (uleb 1).length = 1 := by
  decide +kernel

theorem debugLine_packs (lineEntries : List (Nat × Int)) :
    Packs (lineLength "source.aclm" lineEntries < 2 ^ 32) (debugLine "source.aclm" lineEntries) := by
  have header : (linePrologue "source.aclm").length < 256 ^ 4 := by
    rw [source_lengths.1]
    decide
  unfold debugLine
  refine (Packs.bind (.pack 4 _) fun headerLength packed => ?_).iff (and_iff_right header).symm
  obtain ⟨-, rfl⟩ := pack_ok.mp packed
  refine (Packs.bind (.pack 4 _) fun _ _ => .ok _).iff ?_
  simp only [lineLength, List.length_append, leBytes_length, and_true]
  omega

/-- The line program with its length field. -/
theorem debugLine_length {lineEntries : List (Nat × Int)} {line : List Byte}
    (ok : debugLine "source.aclm" lineEntries = .ok line) : line.length = 4 + lineLength "source.aclm" lineEntries := by
  simp only [debugLine, bind_eq_ok, pack_ok] at ok
  obtain ⟨headerLength, ⟨-, rfl⟩, size, ⟨-, rfl⟩, shape⟩ := ok
  cases shape
  simp only [lineLength, List.length_append, leBytes_length]

theorem debugInfo_packs (codeLen : Nat) : Packs (codeBase + codeLen < 2 ^ 64) (debugInfo "source.aclm" codeLen) := by
  unfold debugInfo
  refine (Packs.bind (.pack 8 _) fun high packed => ?_).iff (and_true _).symm.to_iff
  obtain ⟨-, rfl⟩ := pack_ok.mp packed
  refine (Packs.bind (.pack 4 _) fun _ _ => .ok _).iff ?_
  simp only [List.length_append, leBytes_length, and_true]
  rw [source_lengths.2.1, source_lengths.2.2]
  decide

theorem debugInfo_length {codeLen : Nat} {info : List Byte} (ok : debugInfo "source.aclm" codeLen = .ok info) :
    info.length = 45 := by
  simp only [debugInfo, bind_eq_ok, pack_ok] at ok
  obtain ⟨high, ⟨-, rfl⟩, size, ⟨-, rfl⟩, shape⟩ := ok
  cases shape
  simp only [List.length_append, leBytes_length]
  rw [source_lengths.2.1, source_lengths.2.2]
  decide

/-- Where the section headers stand, behind code, data and the four sections. -/
def sectionHeaders (codeLen dataLen lineLen : Nat) : Nat :=
  let shstrOff := align 8 (120 + codeLen + dataLen)
  let dlOff := align 8 (shstrOff + shstr.length)
  let diOff := align 8 (dlOff + lineLen)
  align 8 (align 8 (diOff + 45) + debugAbbrev.length)

/-- The rows of the line program: the start of the code and the first twenty symbols. -/
def symbolRows (symbols : List (String × Nat)) : List (Nat × Int) := (0, 1) :: (symbols.take 20).map fun s => (s.2, 1)

theorem debug_packs (lineEntries : List (Nat × Int)) (some : lineEntries ≠ []) :
    Packs (lineLength "source.aclm" lineEntries < 2 ^ 32 ∧ codeBase + code.length < 2 ^ 64 ∧
      sectionHeaders code.length data.length (4 + lineLength "source.aclm" lineEntries) < 2 ^ 64)
      (buildElf64ExeDebug code data "source.aclm" lineEntries 0) := by
  unfold buildElf64ExeDebug
  rw [if_neg some]
  refine .bind (debugLine_packs _) fun line written => .bind (debugInfo_packs _) fun info written' => ?_
  rw [debugLine_length written, debugInfo_length written']
  refine (Packs.bind (sectionHeader_packs _ _ _ _) fun _ _ => .bind (sectionHeader_packs _ _ _ _) fun _ _ =>
    .bind (sectionHeader_packs _ _ _ _) fun _ _ => .bind (sectionHeader_packs _ _ _ _) fun _ _ =>
    .bind (sectionHeader_packs _ _ _ _) fun _ _ => .bind (ehdr64_packs _) fun _ _ =>
    .bind (phdr64_packs _ _ _ _) fun _ _ => .ok _).iff ?_
  have larger (n : Nat) : n ≤ align 8 n := by
    unfold align
    omega
  -- Every offset and every size is at most the offset of the section headers.
  have shstrOff := larger (120 + code.length + data.length)
  simp only [sectionHeaders, EHDR_SIZE, PHDR_SIZE, LOAD_VADDR, and_true]
  generalize align 8 (120 + code.length + data.length) = shstrAt at *
  have dlOff := larger (shstrAt + shstr.length)
  generalize align 8 (shstrAt + shstr.length) = dlAt at *
  have diOff := larger (dlAt + (4 + lineLength "source.aclm" lineEntries))
  generalize align 8 (dlAt + (4 + lineLength "source.aclm" lineEntries)) = diAt at *
  have daOff := larger (diAt + 45)
  generalize align 8 (diAt + 45) = daAt at *
  have shoff := larger (daAt + debugAbbrev.length)
  omega

/-- What three small files need fits. -/
theorem small_fits : ∀ e ∈ ([([0xC3], [1, 2, 3], [(0, 1)]), ([0x90, 0xC3], [], [(1, 1), (0, 1)]),
    ([0x90, 0xC3], [], [(0, 1), (1, 2)])] : List (List Byte × List Byte × List (Nat × Int))),
    lineLength "source.aclm" e.2.2 < 2 ^ 32 ∧ codeBase + e.1.length < 2 ^ 64 ∧
      sectionHeaders e.1.length e.2.1.length (4 + lineLength "source.aclm" e.2.2) < 2 ^ 64 := by
  decide +kernel

theorem symtab_packs (symbols : List (String × Nat)) :
    Packs (lineLength "source.aclm" (symbolRows symbols) < 2 ^ 32 ∧ codeBase + code.length < 2 ^ 64 ∧
      sectionHeaders code.length data.length (4 + lineLength "source.aclm" (symbolRows symbols)) < 2 ^ 64)
      (buildElf64WithSymtab code data symbols 0) :=
  (Packs.bind (debug_packs code data _ (List.cons_ne_nil _ _)) fun _ _ => .ok _).iff (and_true _).symm.to_iff

end Writers

end Aclm.Image
