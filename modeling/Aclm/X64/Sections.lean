import Aclm.X64.Elf

/-! The pages that the segments of an ELF file take up in memory, and its section headers. -/

set_option autoImplicit false

namespace Aclm.X64.Elf

/-! ### Pages -/

/-- A page that a segment touches; segments are mapped a whole page at a time. -/
def Segment.Covers (size : Nat) (s : Segment) (page : Nat) : Prop :=
  s.vaddr / size ≤ page ∧ page < (s.vaddr + s.memsz + (size - 1)) / size

def Segment.executable (s : Segment) : Bool := s.flags.testBit 0
def Segment.writable (s : Segment) : Bool := s.flags.testBit 1

/-- Some segment maps the page with a permission. -/
def Maps (size : Nat) (file : List Byte) (permits : Segment → Bool) (page : Nat) : Prop :=
  ∃ s ∈ loads file, permits s = true ∧ s.Covers size page

/-- The segment takes its bytes from where they stand in the file, at a place that can be mapped by pages. -/
structure Segment.Carries (size : Nat) (file : List Byte) (s : Segment) (bs : List Byte) : Prop where
  congruent : s.offset % size = s.vaddr % size
  inside : s.offset + s.filesz ≤ file.length
  contents : (file.drop s.offset).take s.filesz = bs
  whole : s.memsz = s.filesz

/-- A segment that ends where a page of the next one starts shares no page with it. -/
theorem Segment.Covers.apart {size page : Nat} {s t : Segment} (positive : 0 < size) (aligned : size ∣ t.vaddr)
    (after : s.vaddr + s.memsz ≤ t.vaddr) (first : s.Covers size page) : ¬ t.Covers size page := by
  intro second
  have start : t.vaddr / size ≤ page := second.1
  have stop : page < (t.vaddr + (size - 1)) / size :=
    first.2.trans_le (Nat.div_le_div_right (Nat.add_le_add_right after _))
  obtain ⟨k, multiple⟩ := aligned
  rw [multiple, Nat.mul_add_div positive, Nat.div_eq_of_lt (Nat.sub_lt positive Nat.one_pos), Nat.add_zero] at stop
  rw [multiple, Nat.mul_div_cancel_left k positive] at start
  exact absurd stop (Nat.not_lt.mpr start)

theorem not_maps_both {size page : Nat} {file : List Byte} {s t : Segment} (two : loads file = [s, t])
    (positive : 0 < size) (aligned : size ∣ t.vaddr) (after : s.vaddr + s.memsz ≤ t.vaddr)
    (fixed : s.writable = false) (plain : t.executable = false) :
    ¬ (Maps size file Segment.writable page ∧ Maps size file Segment.executable page) := by
  rintro ⟨⟨u, member, writes, covers⟩, v, member', executes, covers'⟩
  rw [two] at member member'
  have hu : u = t := by
    rcases List.mem_pair.mp member with rfl | rfl
    · exact absurd writes (by simp [fixed])
    · rfl
  have hv : v = s := by
    rcases List.mem_pair.mp member' with rfl | rfl
    · rfl
    · exact absurd executes (by simp [plain])
  subst hu hv
  exact covers'.apart positive aligned after covers

/-! ### Sections -/

structure Section where
  name : Nat
  type : Nat
  flags : Nat
  addr : Nat
  offset : Nat
  size : Nat
  deriving DecidableEq, Repr

/-- The section header at an offset of a 64-bit file. -/
def section64 (file : List Byte) (p : Nat) : Section :=
  { name := field file p 4, type := field file (p + 4) 4, flags := field file (p + 8) 8,
    addr := field file (p + 16) 8, offset := field file (p + 24) 8, size := field file (p + 32) 8 }

def sections64 (file : List Byte) : List Section :=
  (List.range (field file 60 2)).map fun i => section64 file (field file 40 8 + i * field file 58 2)

def Section.contents (file : List Byte) (s : Section) : List Byte := (file.drop s.offset).take s.size

/-- The string at an offset of a table, up to its NUL. -/
def cstring (table : List Byte) (o : Nat) : Option (List Byte) :=
  if 0 ∈ table.drop o then some ((table.drop o).takeWhile (· ≠ 0)) else none

/-- The name of a section, in the section whose index is the last field of the file header. -/
def Section.named (file : List Byte) (s : Section) : Option (List Byte) :=
  (sections64 file)[field file 62 2]?.bind fun strings => cstring (strings.contents file) s.name

def sectionNamed (file name : List Byte) : Option Section :=
  (sections64 file).find? fun s => s.named file = some name

def Section.Disjoint (s t : Section) : Prop := s.offset + s.size ≤ t.offset ∨ t.offset + t.size ≤ s.offset

section Reading

variable {xs ys : List Byte}

theorem section64_skip {p : Nat} (after : xs.length ≤ p) : section64 (xs ++ ys) p = section64 ys (p - xs.length) := by
  have further (k : Nat) : p + k - xs.length = p - xs.length + k := by omega
  simp only [section64, field_skip after, field_skip (Nat.le_add_right_of_le after), further]

/-- The bytes of one header of the table. -/
structure Heads (bs : List Byte) (s : Section) : Prop where
  length : bs.length = 64
  reads : ∀ rest, section64 (bs ++ rest) 0 = s

theorem section64_table {headers : List (List Byte)} {ss : List Section} (heads : List.Forall₂ Heads headers ss)
    (rest : List Byte) :
    (List.range ss.length).map (fun i => section64 (xs ++ headers.flatten ++ rest) (xs.length + i * 64)) = ss := by
  induction heads generalizing xs with
  | nil => rfl
  | cons head tail ih =>
    rename_i bs s headers ss
    have first : section64 (xs ++ (bs :: headers).flatten ++ rest) xs.length = s := by
      rw [List.append_assoc, section64_skip (le_refl _), Nat.sub_self, List.flatten_cons, List.append_assoc]
      exact head.reads _
    have later := @ih (xs ++ bs)
    rw [List.length_append, head.length] at later
    rw [List.length_cons, List.range_succ_eq_map, List.map_cons, List.map_map, Nat.zero_mul, Nat.add_zero, first]
    refine congrArg (s :: ·) (Eq.trans (List.map_congr_left fun i _ => ?_) later)
    rw [List.flatten_cons, ← List.append_assoc xs, Function.comp_apply, Nat.succ_mul, Nat.add_right_comm,
      Nat.add_assoc]

end Reading

/-! ### Blocks of bytes -/

theorem StandsAt.mono {file file' : List Byte} {o : Nat} {bs : List Byte} (here : StandsAt file o bs)
    (inside : o ≤ file.length) (more : file <+: file') : StandsAt file' o bs := by
  obtain ⟨rest, rfl⟩ := more
  rw [StandsAt, List.drop_append_of_le_length inside]
  exact here.trans (List.prefix_append _ _)

theorem StandsAt.split {file : List Byte} {o : Nat} {bs : List Byte} (here : StandsAt file o bs)
    (inside : o ≤ file.length) : ∃ pre rest, file = pre ++ bs ++ rest ∧ pre.length = o := by
  obtain ⟨rest, shape⟩ := here
  refine ⟨file.take o, rest, ?_, List.length_take_of_le inside⟩
  rw [List.append_assoc, shape, List.take_append_drop]

theorem StandsAt.take {file : List Byte} {o : Nat} {bs : List Byte} (here : StandsAt file o bs) :
    (file.drop o).take bs.length = bs := (List.prefix_iff_eq_take.mp here).symm

theorem StandsAt.le_length {file : List Byte} {o : Nat} {bs : List Byte} (here : StandsAt file o bs)
    (inside : o ≤ file.length) : o + bs.length ≤ file.length := by
  have room := here.length_le
  rw [List.length_drop] at room
  omega

end Aclm.X64.Elf
