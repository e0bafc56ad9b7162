import Aclm.X64.Instr

/-! Decoding one instruction from the front of a byte string: an optional operand-size prefix, an
optional REX prefix, the opcode, the ModRM operand with its SIB byte and displacement, and the
immediate. Byte strings outside the modelled instructions do not decode. -/

set_option autoImplicit false

namespace Aclm.X64

structure Rex where
  w : Bool
  r : Bool
  x : Bool
  b : Bool
  deriving DecidableEq, Repr

namespace Rex

def absent : Rex := ⟨false, false, false, false⟩

def byte (p : Rex) : Byte :=
  BitVec.ofNat 8 (64 + 8 * p.w.toNat + 4 * p.r.toNat + 2 * p.x.toNat + p.b.toNat)

def ofByte (v : Byte) : Option Rex :=
  if v.toNat / 16 = 4 then some ⟨v.getLsbD 3, v.getLsbD 2, v.getLsbD 1, v.getLsbD 0⟩ else none

@[simp] theorem ofByte_byte (p : Rex) : ofByte p.byte = some p := by
  obtain ⟨w, r, x, b⟩ := p
  cases w <;> cases r <;> cases x <;> cases b <;> rfl

end Rex

/-- The prefix, when the string starts with one. -/
def takeRex : List Byte → Option Rex × List Byte
  | [] => (none, [])
  | v :: rest => match Rex.ofByte v with
    | some p => (some p, rest)
    | none => (none, v :: rest)

def takeOpsize : List Byte → Bool × List Byte
  | [] => (false, [])
  | v :: rest => if v = 0x66#8 then (true, rest) else (false, v :: rest)

def take8 : List Byte → Option (Nat × List Byte)
  | b :: rest => some (b.toNat, rest)
  | [] => none

/-- A sign-extended byte. -/
def takeS8 (bs : List Byte) : Option (Int × List Byte) :=
  (take8 bs).map fun v => (toSigned 8 v.1, v.2)

def takeLe (n : Nat) (bs : List Byte) : Option (Nat × List Byte) :=
  if n ≤ bs.length then some (leValue (bs.take n), bs.drop n) else none

/-- A sign-extended four-byte number. -/
def takeS32 (bs : List Byte) : Option (Int × List Byte) :=
  (takeLe 4 bs).map fun v => (toSigned 32 v.1, v.2)

def modrmByte (mod field rm : Nat) : Byte := BitVec.ofNat 8 (64 * mod + 8 * field + rm)

inductive Rm where
  | reg (r : Reg)
  | mem (m : MemRef)
  | rip (disp : Int)
  deriving DecidableEq, Repr

/-- The displacement that the mod field asks for. -/
def takeDisp (mod : Nat) (bs : List Byte) : Option (Int × List Byte) :=
  if mod = 0 then some (0, bs) else if mod = 1 then takeS8 bs else takeS32 bs

def takeSib (p : Rex) (mod : Nat) : List Byte → Option (Rm × List Byte)
  | [] => none
  | sib :: rest => do
    let scale := sib.toNat / 64
    let i := Reg.ofFields p.x (sib.toNat / 8 % 8)
    let index := if i = .rsp then none else some (i, scale)
    if sib.toNat % 8 = 5 ∧ mod = 0 then
      let (disp, rest) ← takeS32 rest
      some (.mem ⟨none, index, BitVec.ofInt 64 disp⟩, rest)
    else
      let (disp, rest) ← takeDisp mod rest
      some (.mem ⟨some (Reg.ofFields p.b (sib.toNat % 8)), index, BitVec.ofInt 64 disp⟩, rest)

/-- The reg field and the r/m operand. -/
def takeRm (p : Rex) : List Byte → Option (Nat × Rm × List Byte)
  | [] => none
  | v :: rest => do
    let mod := v.toNat / 64
    let field := v.toNat / 8 % 8
    let rm := v.toNat % 8
    if mod = 3 then some (field, .reg (Reg.ofFields p.b rm), rest)
    else if rm = 4 then
      let (operand, rest) ← takeSib p mod rest
      some (field, operand, rest)
    else if mod = 0 ∧ rm = 5 then
      let (disp, rest) ← takeS32 rest
      some (field, .rip disp, rest)
    else
      let (disp, rest) ← takeDisp mod rest
      some (field, .mem ⟨some (Reg.ofFields p.b rm), none, BitVec.ofInt 64 disp⟩, rest)

def Alu.ofField : Nat → Alu
  | 0 => .add | 1 => .or | 2 => .adc | 3 => .sbb | 4 => .and | 5 => .sub | 6 => .xor | _ => .cmp

def Shift.ofField : Nat → Shift
  | 0 => .rol | 1 => .ror | 2 => .rcl | 3 => .rcr | 4 => .shl | 5 => .shr | 6 => .shl | _ => .sar

/-- A byte register: without a REX prefix the numbers from 4 on name the high bytes, which are not
modelled. -/
def byteReg (prefixed : Bool) (r : Reg) : Option Reg :=
  if prefixed ∨ r.num < 4 then some r else none

/-- How many bytes a general operand has. -/
def operandBytes (opsize : Bool) (p : Rex) : Nat := if p.w then 8 else if opsize then 2 else 4

/-- The two-byte opcodes `0F xx`. -/
def decodeTwo (prefixed : Bool) (p : Rex) (op : Nat) (bs : List Byte) : Option (Instr × List Byte) :=
  if op = 0x05 then some (.syscall, bs)
  else if op = 0x07 ∧ p.w then some (.sysret, bs)
  else if op = 0x30 then some (.wrmsr, bs)
  else if op / 16 = 8 then do
    let (disp, rest) ← takeS32 bs
    some (.jcc (Cond.ofCode (op % 16)) disp, rest)
  else do
    let (field, rm, rest) ← takeRm p bs
    let r := Reg.ofFields p.r field
    match rm with
    | .reg s =>
      if op / 16 = 4 ∧ p.w then some (.cmov (Cond.ofCode (op % 16)) r s, rest)
      else if op / 16 = 9 then
        let d ← byteReg prefixed s
        some (.setcc (Cond.ofCode (op % 16)) d, rest)
      else if op = 0xAF ∧ p.w then some (.imul r s, rest)
      else if op = 0xB6 ∧ p.w then some (.movzx8 r s, rest)
      else none
    | .mem m =>
      if op = 0xB6 ∧ p.w then some (.load 1 r m, rest)
      else if op = 0xB7 ∧ p.w then some (.load 2 r m, rest)
      else if op = 0x01 ∧ field = 3 then some (.lidt m, rest)
      else none
    | .rip _ => none

/-- The operand forms of the one-byte opcodes. -/
def decodeRm (opsize prefixed : Bool) (p : Rex) (op : Nat) (bs : List Byte) :
    Option (Instr × List Byte) := do
  let (field, rm, rest) ← takeRm p bs
  let r := Reg.ofFields p.r field
  match rm with
  | .reg s =>
    if ¬p.w then none
    else if op = 0x89 then some (.mov s r, rest)
    else if op = 0x85 then some (.test s r, rest)
    else if op = 0x87 then some (Instr.exchange r s, rest)
    else if op < 64 ∧ op % 8 = 1 then some (.alu (Alu.ofField (op / 8)) s r, rest)
    else if op = 0x81 then
      let (imm, rest) ← takeS32 rest
      some (.aluImm (Alu.ofField field) s (BitVec.ofInt 64 imm), rest)
    else if op = 0xC7 ∧ field = 0 then
      let (imm, rest) ← takeS32 rest
      some (.movImm s (BitVec.ofInt 64 imm), rest)
    else if op = 0xC1 then
      let (count, rest) ← take8 rest
      some (.shiftImm (Shift.ofField field) s count, rest)
    else if op = 0xD3 then some (.shiftCl (Shift.ofField field) s, rest)
    else if op = 0xF7 ∧ field = 2 then some (.unary .not s, rest)
    else if op = 0xF7 ∧ field = 3 then some (.unary .neg s, rest)
    else if op = 0xF7 ∧ field = 4 then some (.wide .mul s, rest)
    else if op = 0xF7 ∧ field = 6 then some (.wide .div s, rest)
    else if op = 0xF7 ∧ field = 7 then some (.wide .idiv s, rest)
    else if op = 0xFF ∧ field = 0 then some (.unary .inc s, rest)
    else if op = 0xFF ∧ field = 1 then some (.unary .dec s, rest)
    else if op = 0xFF ∧ field = 2 then some (.callReg s, rest)
    else none
  | .mem m =>
    if op = 0x8B ∧ ¬opsize then some (.load (operandBytes opsize p) r m, rest)
    else if op = 0x89 then some (.store (operandBytes opsize p) m r, rest)
    else if op = 0x88 then
      let s ← byteReg prefixed r
      some (.store 1 m s, rest)
    else if op = 0x8D ∧ p.w then some (.lea r m, rest)
    else none
  | .rip disp => if op = 0x8D ∧ p.w then some (.leaRip r disp, rest) else none

/-- Behind a lock prefix: the compare-exchange of a word. -/
def decodeLocked (bs : List Byte) : Option (Instr × List Byte) := do
  let (p, bs) := takeRex bs
  let p := p.getD .absent
  let (op, rest) ← take8 bs
  let (second, rest) ← take8 rest
  let (field, rm, rest) ← takeRm p rest
  match rm with
  | .mem m => if op = 0x0F ∧ second = 0xB1 ∧ p.w then some (.lockCmpxchg m (Reg.ofFields p.r field), rest) else none
  | _ => none

/-- Behind a repeat prefix: the string instructions for bytes. -/
def decodeRepeated : List Byte → Option (Instr × List Byte)
  | 0xAA#8 :: rest => some (.repStosb, rest)
  | 0xA4#8 :: rest => some (.repMovsb, rest)
  | _ => none

def decodeOp (opsize prefixed : Bool) (p : Rex) (op : Nat) (bs : List Byte) :
    Option (Instr × List Byte) :=
  if op = 0x0F then do
    let (second, rest) ← take8 bs
    decodeTwo prefixed p second rest
  else if op / 8 = 0x50 / 8 then some (.push (Reg.ofFields p.b (op % 8)), bs)
  else if op / 8 = 0x58 / 8 then some (.pop (Reg.ofFields p.b (op % 8)), bs)
  else if op / 8 = 0x90 / 8 ∧ p.w then
    some (Instr.exchange .rax (Reg.ofFields p.b (op % 8)), bs)
  else if op / 8 = 0xB8 / 8 ∧ ¬opsize then do
    let (v, rest) ← takeLe (if p.w then 8 else 4) bs
    some (.movImm (Reg.ofFields p.b (op % 8)) (BitVec.ofNat 64 v), rest)
  else if op = 0x99 ∧ p.w then some (.cqo, bs)
  else if op = 0xC3 then some (.ret, bs)
  else if op = 0xCF ∧ p.w then some (.iretq, bs)
  else if op = 0xE8 then do
    let (disp, rest) ← takeS32 bs
    some (.call disp, rest)
  else if op = 0xE9 then do
    let (disp, rest) ← takeS32 bs
    some (.jmp disp, rest)
  else if op = 0xEB then do
    let (disp, rest) ← takeS8 bs
    some (.jmp disp, rest)
  else if op = 0xEC then some (.inAl, bs)
  else if op = 0xEE then some (.outAl, bs)
  else if op = 0xF4 then some (.hlt, bs)
  else if op = 0xF0 ∧ ¬opsize ∧ ¬prefixed then decodeLocked bs
  else if op = 0xF3 ∧ ¬opsize ∧ ¬prefixed then decodeRepeated bs
  else decodeRm opsize prefixed p op bs

/-- The first instruction and the bytes after it. -/
def decode (bs : List Byte) : Option (Instr × List Byte) := do
  let (opsize, bs) := takeOpsize bs
  let (p, bs) := takeRex bs
  let (op, rest) ← take8 bs
  decodeOp opsize p.isSome (p.getD .absent) op rest

/-- Decoding a whole byte string from its first byte, `fuel` instructions at most. -/
def decodeAll : Nat → List Byte → Option (List Instr)
  | _, [] => some []
  | 0, _ :: _ => none
  | fuel + 1, b :: bs => do
    let (i, rest) ← decode (b :: bs)
    (decodeAll fuel rest).map (i :: ·)

section Fields

theorem modrmByte_toNat {mod field rm : Nat} (hm : mod < 4) (hf : field < 8) (hr : rm < 8) :
    (modrmByte mod field rm).toNat = 64 * mod + 8 * field + rm := by
  simp only [modrmByte, BitVec.toNat_ofNat]
  omega

variable (p : Rex) (rest : List Byte)

@[simp] theorem takeRex_byte : takeRex (p.byte :: rest) = (some p, rest) := by
  simp [takeRex]

theorem takeRex_other {v : Byte} (other : v.toNat / 16 ≠ 4) :
    takeRex (v :: rest) = (none, v :: rest) := by
  simp [takeRex, Rex.ofByte, other]

@[simp] theorem takeOpsize_rex : takeOpsize (p.byte :: rest) = (false, p.byte :: rest) := by
  obtain ⟨w, r, x, b⟩ := p
  cases w <;> cases r <;> cases x <;> cases b <;> rfl

@[simp] theorem takeLe_leBytes (n v : Nat) :
    takeLe n (leBytes n v ++ rest) = some (v % 256 ^ n, rest) := by
  have front : (leBytes n v ++ rest).take n = leBytes n v := List.take_left' (leBytes_length n v)
  have back : (leBytes n v ++ rest).drop n = rest := List.drop_left' (leBytes_length n v)
  rw [takeLe, if_pos (by simp), front, back, leValue_leBytes]

/-- A four-byte two's-complement number reads back. -/
theorem takeS32_ofSigned {v : Int} (lower : -2 ^ 31 ≤ v) (upper : v < 2 ^ 31) :
    takeS32 (leBytes 4 (ofSigned 32 v) ++ rest) = some (v, rest) := by
  have small : ofSigned 32 v % 256 ^ 4 = ofSigned 32 v := Nat.mod_eq_of_lt (ofSigned_lt 32 v)
  rw [takeS32, takeLe_leBytes, small, Option.map_some,
    toSigned_ofSigned 32 v (by decide) (by simpa using lower) (by simpa using upper)]

theorem takeS8_ofSigned {v : Int} (lower : -2 ^ 7 ≤ v) (upper : v < 2 ^ 7) :
    takeS8 (leBytes 1 (ofSigned 8 v) ++ rest) = some (v, rest) := by
  have small : ofSigned 8 v % 256 = ofSigned 8 v := Nat.mod_eq_of_lt (ofSigned_lt 8 v)
  simp only [leBytes, List.cons_append, List.nil_append, takeS8, take8, BitVec.toNat_ofNat,
    Nat.reducePow, small, Option.map_some]
  rw [toSigned_ofSigned 8 v (by decide) (by simpa using lower) (by simpa using upper)]

/-- The three fields of a ModRM or SIB byte. -/
theorem modrmByte_fields {mod field rm : Nat} (hm : mod < 4) (hf : field < 8) (hr : rm < 8) :
    (modrmByte mod field rm).toNat / 64 = mod ∧ (modrmByte mod field rm).toNat / 8 % 8 = field ∧
      (modrmByte mod field rm).toNat % 8 = rm := by
  rw [modrmByte_toNat hm hf hr]
  omega

section Operand

variable {field mod : Nat} {p} {rest} (hf : field < 8)
include hf

variable (p) (rest) in
theorem takeRm_reg {s : Reg} (hb : p.b = s.high) :
    takeRm p (modrmByte 3 field s.low :: rest) = some (field, .reg s, rest) := by
  obtain ⟨top, mid, low⟩ := modrmByte_fields (by decide : 3 < 4) hf s.low_lt
  simp only [takeRm, top, mid, low, if_true, hb, Reg.ofFields_high_low]

variable (p) (rest) in
theorem takeRm_rip {v : Int} (lower : -2 ^ 31 ≤ v) (upper : v < 2 ^ 31) :
    takeRm p (modrmByte 0 field 5 :: (leBytes 4 (ofSigned 32 v) ++ rest)) =
      some (field, .rip v, rest) := by
  obtain ⟨top, mid, low⟩ := modrmByte_fields (by decide : 0 < 4) hf (by decide : 5 < 8)
  simp only [takeRm, top, mid, low]
  simp [takeS32_ofSigned rest lower upper]

variable (hm : mod < 3) {disp : Int} {bs : List Byte} (hdisp : takeDisp mod bs = some (disp, rest))
include hm hdisp

theorem takeRm_base {s : Reg} (hb : p.b = s.high) (noSib : s.low ≠ 4) (noRip : ¬(mod = 0 ∧ s.low = 5)) :
    takeRm p (modrmByte mod field s.low :: bs) =
      some (field, .mem ⟨some s, none, BitVec.ofInt 64 disp⟩, rest) := by
  obtain ⟨top, mid, low⟩ := modrmByte_fields (by omega : mod < 4) hf s.low_lt
  have notReg : mod ≠ 3 := by omega
  simp only [takeRm, top, mid, low, if_neg notReg, if_neg noSib, if_neg noRip, hdisp, hb,
    Reg.ofFields_high_low]
  rfl

theorem takeRm_sib {s : Reg} {scale i : Nat} (hs : scale < 4) (hi : i < 8) (hb : p.b = s.high)
    (based : ¬(s.low = 5 ∧ mod = 0)) :
    takeRm p (modrmByte mod field 4 :: modrmByte scale i s.low :: bs) =
      some (field, .mem ⟨some s, if Reg.ofFields p.x i = .rsp then none else some (Reg.ofFields p.x i, scale),
        BitVec.ofInt 64 disp⟩, rest) := by
  obtain ⟨top, mid, low⟩ := modrmByte_fields (by omega : mod < 4) hf (by decide : 4 < 8)
  obtain ⟨sibTop, sibMid, sibLow⟩ := modrmByte_fields hs hi s.low_lt
  have notReg : mod ≠ 3 := by omega
  simp only [takeRm, top, mid, low, if_neg notReg, if_true, takeSib, sibTop, sibMid, sibLow,
    if_neg based, hdisp, hb, Reg.ofFields_high_low]
  rfl

end Operand

end Fields

/-- The bytes spell the instructions, whatever follows them. -/
inductive Spells : List Byte → List Instr → Prop where
  | nil : Spells [] []
  | cons {bs rest : List Byte} {i : Instr} {is : List Instr} (nonempty : bs ≠ [])
      (decoded : ∀ tail, decode (bs ++ tail) = some (i, tail)) (more : Spells rest is) :
      Spells (bs ++ rest) (i :: is)

namespace Spells

variable {as bs : List Byte} {is js : List Instr}

theorem single {i : Instr} (nonempty : bs ≠ []) (decoded : ∀ tail, decode (bs ++ tail) = some (i, tail)) :
    Spells bs [i] := by
  simpa using cons nonempty decoded nil

theorem append (first : Spells as is) (second : Spells bs js) : Spells (as ++ bs) (is ++ js) := by
  induction first with
  | nil => exact second
  | cons nonempty decoded _ ih => simpa using cons nonempty decoded ih

/-- Decoding from the first byte reads the spelled instructions and nothing else. -/
theorem decodeAll (spells : Spells bs is) {fuel : Nat} (enough : bs.length ≤ fuel) :
    decodeAll fuel bs = some is := by
  induction spells generalizing fuel with
  | nil => cases fuel <;> rfl
  | @cons bs rest i is nonempty decoded _ ih =>
    obtain ⟨b, tail, rfl⟩ := List.exists_cons_of_ne_nil nonempty
    simp only [List.length_append, List.length_cons] at enough
    obtain ⟨fuel, rfl⟩ : ∃ k, fuel = k + 1 := ⟨fuel - 1, by omega⟩
    have head := decoded rest
    rw [List.cons_append] at head
    simp [X64.decodeAll, head, ih (by omega : rest.length ≤ fuel)]

end Spells

end Aclm.X64
