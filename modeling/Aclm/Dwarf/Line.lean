import Aclm.X64.Elf

/-! Line number programs of DWARF 4: variable-length numbers, the opcodes, and the table that a program makes. -/

set_option autoImplicit false

namespace Aclm.Dwarf

open X64 (Byte leValue toSigned)
open X64.Elf (field)

/-! ### Variable-length numbers -/

/-- Seven bits a byte, the low ones first; the last byte has its high bit clear. -/
def takeUleb : List Byte → Option (Nat × List Byte)
  | [] => none
  | b :: bs =>
    if b.toNat < 128 then some (b.toNat, bs)
    else (takeUleb bs).map fun more => (b.toNat - 128 + 128 * more.1, more.2)

/-- As `takeUleb`, with the sign in the highest of the seven bits of the last byte. -/
def takeSleb : List Byte → Option (Int × List Byte)
  | [] => none
  | b :: bs =>
    if b.toNat < 64 then some (b.toNat, bs)
    else if b.toNat < 128 then some (b.toNat - 128, bs)
    else (takeSleb bs).map fun more => (b.toNat - 128 + 128 * more.1, more.2)

def skipUlebs : Nat → List Byte → Option (List Byte)
  | 0, bs => some bs
  | n + 1, bs => (takeUleb bs).bind fun more => skipUlebs n more.2

theorem takeUleb_shortens {bs rest : List Byte} {n : Nat} (taken : takeUleb bs = some (n, rest)) :
    rest.length < bs.length := by
  induction bs generalizing n with
  | nil => cases taken
  | cons b bs ih =>
    rw [takeUleb] at taken
    split at taken
    · cases taken
      exact Nat.lt_succ_self _
    · obtain ⟨more, tail, shape⟩ := Option.map_eq_some_iff.mp taken
      cases shape
      exact (ih tail).trans (Nat.lt_succ_self _)

theorem takeSleb_shortens {bs rest : List Byte} {n : Int} (taken : takeSleb bs = some (n, rest)) :
    rest.length < bs.length := by
  induction bs generalizing n with
  | nil => cases taken
  | cons b bs ih =>
    rw [takeSleb] at taken
    split_ifs at taken
    · cases taken
      exact Nat.lt_succ_self _
    · cases taken
      exact Nat.lt_succ_self _
    · obtain ⟨more, tail, shape⟩ := Option.map_eq_some_iff.mp taken
      cases shape
      exact (ih tail).trans (Nat.lt_succ_self _)

theorem skipUlebs_le {n : Nat} {bs rest : List Byte} (skipped : skipUlebs n bs = some rest) :
    rest.length ≤ bs.length := by
  induction n generalizing bs with
  | zero => cases skipped; exact le_refl _
  | succ n ih =>
    obtain ⟨more, taken, later⟩ := Option.bind_eq_some_iff.mp skipped
    exact (ih later).trans (takeUleb_shortens taken).le

/-! ### The machine -/

/-- What the header of a unit says about its opcodes. -/
structure Header where
  minInstruction : Nat
  lineBase : Int
  lineRange : Nat
  opcodeBase : Nat
  /-- How many numbers follow each opcode below `opcodeBase`. -/
  lengths : List Nat

/-- The registers that addresses and lines are taken from. -/
structure Registers where
  address : Nat
  line : Int
  deriving DecidableEq, Repr

def Registers.initial : Registers := ⟨0, 1⟩

inductive Entry where
  | row (address : Nat) (line : Int)
  | endSequence
  deriving DecidableEq, Repr

/-- The registers after an opcode, the rows it appends and the bytes behind it. -/
structure Stepped where
  registers : Registers
  appended : List Entry
  rest : List Byte

def Header.advance (h : Header) (r : Registers) (operations : Nat) : Registers :=
  { r with address := r.address + h.minInstruction * operations }

/-- An opcode that moves both registers and appends a row. -/
def Header.special (h : Header) (r : Registers) (opcode : Nat) (rest : List Byte) : Stepped :=
  let adjusted := opcode - h.opcodeBase
  let r := h.advance { r with line := r.line + (h.lineBase + (adjusted % h.lineRange : Nat)) } (adjusted / h.lineRange)
  ⟨r, [.row r.address r.line], rest⟩

/-- An opcode with its own length: the end of the sequence, an address, or one that moves neither register. -/
def extendedOpcode (r : Registers) (bs : List Byte) : Option Stepped :=
  (takeUleb bs).bind fun (size, bs) =>
    match bs.take size with
    | [] => none
    | op :: payload =>
      if bs.length < size then none
      else if op = 1 then some ⟨.initial, [.endSequence], bs.drop size⟩
      else if op = 2 then some ⟨{ r with address := leValue payload }, [], bs.drop size⟩
      else some ⟨r, [], bs.drop size⟩

def Header.step (h : Header) (r : Registers) : List Byte → Option Stepped
  | [] => none
  | b :: bs =>
    if h.opcodeBase ≤ b.toNat then some (h.special r b.toNat bs)
    else match b.toNat with
      | 0 => extendedOpcode r bs
      | 1 => some ⟨r, [.row r.address r.line], bs⟩
      | 2 => (takeUleb bs).map fun more => ⟨h.advance r more.1, [], more.2⟩
      | 3 => (takeSleb bs).map fun more => ⟨{ r with line := r.line + more.1 }, [], more.2⟩
      | 8 => some ⟨h.advance r ((255 - h.opcodeBase) / h.lineRange), [], bs⟩
      | 9 => if bs.length < 2 then none
        else some ⟨{ r with address := r.address + leValue (bs.take 2) }, [], bs.drop 2⟩
      -- The registers that these opcodes set are not kept here.
      | op => (skipUlebs (h.lengths.getD (op - 1) 0) bs).map fun rest => ⟨r, [], rest⟩

def Header.run (h : Header) : Nat → Registers → List Byte → Option (List Entry)
  | _, _, [] => some []
  | 0, _, _ :: _ => none
  | n + 1, r, b :: bs => (h.step r (b :: bs)).bind fun s => (h.run n s.registers s.rest).map (s.appended ++ ·)

/-- The table of a program. -/
def Header.table (h : Header) (r : Registers) (bs : List Byte) : Option (List Entry) := h.run bs.length r bs

theorem extendedOpcode_shortens {r : Registers} {bs : List Byte} {s : Stepped} (stepped : extendedOpcode r bs = some s) :
    s.rest.length < bs.length := by
  obtain ⟨⟨size, more⟩, taken, later⟩ := Option.bind_eq_some_iff.mp stepped
  have shorter := takeUleb_shortens taken
  dsimp only at later
  have dropped : (more.drop size).length ≤ more.length := by
    rw [List.length_drop]
    exact Nat.sub_le _ _
  split at later
  · cases later
  · split_ifs at later <;> cases later <;> exact dropped.trans_lt shorter

theorem Header.step_shortens {h : Header} {r : Registers} {bs : List Byte} {s : Stepped}
    (stepped : h.step r bs = some s) : s.rest.length < bs.length := by
  cases bs with
  | nil => cases stepped
  | cons b bs =>
    have less : bs.length < (b :: bs).length := Nat.lt_succ_self _
    rw [Header.step] at stepped
    split at stepped
    · cases stepped
      exact less
    split at stepped
    · exact (extendedOpcode_shortens stepped).trans less
    · cases stepped
      exact less
    · obtain ⟨more, taken, rfl⟩ := Option.map_eq_some_iff.mp stepped
      exact (takeUleb_shortens taken).trans less
    · obtain ⟨more, taken, rfl⟩ := Option.map_eq_some_iff.mp stepped
      exact (takeSleb_shortens taken).trans less
    · cases stepped
      exact less
    · split at stepped
      · cases stepped
      · cases stepped
        simp only [List.length_drop, List.length_cons]
        omega
    · obtain ⟨rest, skipped, rfl⟩ := Option.map_eq_some_iff.mp stepped
      exact (skipUlebs_le skipped).trans_lt less

theorem Header.run_enough (h : Header) {n m : Nat} (r : Registers) (bs : List Byte) (few : bs.length ≤ n)
    (few' : bs.length ≤ m) : h.run n r bs = h.run m r bs := by
  induction n generalizing m r bs with
  | zero =>
    obtain rfl := List.eq_nil_of_length_eq_zero (Nat.le_zero.mp few)
    cases m <;> rfl
  | succ n ih =>
    cases bs with
    | nil => cases m <;> rfl
    | cons b bs =>
      obtain ⟨m, rfl⟩ := Nat.exists_eq_succ_of_ne_zero (Nat.ne_of_gt (Nat.lt_of_lt_of_le (Nat.succ_pos _) few'))
      simp only [Header.run]
      cases stepped : h.step r (b :: bs) with
      | none => rfl
      | some s =>
        have shorter := h.step_shortens stepped
        rw [List.length_cons] at few few' shorter
        simp only [Option.bind_some]
        rw [@ih m s.registers s.rest (by omega) (by omega)]

@[simp] theorem Header.table_nil (h : Header) (r : Registers) : h.table r [] = some [] := rfl

/-- The table from one opcode on. -/
theorem Header.table_step {h : Header} {r : Registers} {bs : List Byte} {s : Stepped} (stepped : h.step r bs = some s) :
    h.table r bs = (h.table s.registers s.rest).map (s.appended ++ ·) := by
  have shorter := h.step_shortens stepped
  cases bs with
  | nil => cases stepped
  | cons b bs =>
    rw [List.length_cons] at shorter
    rw [Header.table, List.length_cons, Header.run, stepped, Option.bind_some, Header.table,
      h.run_enough _ _ (Nat.le_of_lt_succ shorter) (le_refl _)]

/-! ### Units -/

/-- The header of the unit that a section starts with. -/
def lineHeader (unit : List Byte) : Header where
  minInstruction := field unit 10 1
  lineBase := toSigned 8 (field unit 13 1)
  lineRange := field unit 14 1
  opcodeBase := field unit 15 1
  lengths := (List.range (field unit 15 1 - 1)).map fun i => field unit (16 + i) 1

/-- The line number program: what is left of the unit behind its header. -/
def opcodes (unit : List Byte) : List Byte := ((unit.drop 4).take (field unit 0 4)).drop (6 + field unit 6 4)

/-- The table of a unit of version 4 with one operation an instruction. -/
def lineTable (unit : List Byte) : Option (List Entry) :=
  if field unit 4 2 = 4 ∧ field unit 11 1 = 1 then (lineHeader unit).table .initial (opcodes unit) else none

end Aclm.Dwarf
