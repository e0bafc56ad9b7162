import Aclm.Encoder.Link

/-! What each emitter means: the instructions its bytes decode to. -/

set_option autoImplicit false

namespace Aclm.Encoder

open X64 (Byte Word Reg Cond Rex Instr Spells MemRef decode decodeOp decodeRm decodeTwo takeRm modrmByte
  leBytes ofSigned)

/-! ### Bytes and fields -/

theorem shift_three (r : Reg) : r.num >>> 3 = r.high.toNat := by cases r <;> rfl

theorem and_seven (r : Reg) : r.num &&& 7 = r.low := by cases r <;> rfl

theorem rex_eq (w r x b : Bool) : rex w.toNat r.toNat x.toNat b.toNat = Rex.byte ⟨w, r, x, b⟩ := by
  cases w <;> cases r <;> cases x <;> cases b <;> rfl

theorem modrm_eq {mod field rm : Nat} (hm : mod < 4) (hf : field < 8) (hr : rm < 8) :
    modrm mod field rm = modrmByte mod field rm := by
  have all : ∀ m : Fin 4, ∀ f r : Fin 8, modrm m f r = modrmByte m f r := by decide
  exact all ⟨mod, hm⟩ ⟨field, hf⟩ ⟨rm, hr⟩

theorem decode_rex (p : Rex) (op : Byte) (rest : List Byte) :
    decode (p.byte :: op :: rest) = decodeOp false true p op.toNat rest := by
  simp [decode, X64.take8]

/-- An opcode that is no prefix. -/
theorem decode_plain {op : Byte} (opsize : op ≠ 0x66#8) (noRex : op.toNat / 16 ≠ 4) (rest : List Byte) :
    decode (op :: rest) = decodeOp false false .absent op.toNat rest := by
  simp [decode, X64.takeOpsize, opsize, X64.takeRex_other _ noRex, X64.take8]

theorem decode_opsize_rex (p : Rex) (op : Byte) (rest : List Byte) :
    decode (0x66#8 :: p.byte :: op :: rest) = decodeOp true true p op.toNat rest := by
  simp [decode, X64.takeOpsize, X64.take8]

theorem regReg_eq (opcode : List Byte) (reg rm : Reg) :
    regReg opcode reg rm =
      Rex.byte ⟨true, reg.high, false, rm.high⟩ :: opcode ++ [modrmByte 3 reg.low rm.low] := by
  have pfx := rex_eq true reg.high false rm.high
  simp only [Bool.toNat_true, Bool.toNat_false] at pfx
  simp only [regReg, shift_three, and_seven, pfx, modrm_eq (by decide : 3 < 4) reg.low_lt rm.low_lt,
    List.cons_append, List.nil_append]

theorem regExt_eq (opcode : List Byte) {ext : Nat} (small : ext < 8) (r : Reg) :
    regExt opcode ext r =
      Rex.byte ⟨true, false, false, r.high⟩ :: opcode ++ [modrmByte 3 ext r.low] := by
  have pfx := rex_eq true false false r.high
  simp only [Bool.toNat_true, Bool.toNat_false] at pfx
  simp only [regExt, shift_three, and_seven, pfx, modrm_eq (by decide : 3 < 4) small r.low_lt,
    List.cons_append, List.nil_append]

theorem takeRm_regReg (reg rm : Reg) (rest : List Byte) :
    takeRm ⟨true, reg.high, false, rm.high⟩ (modrmByte 3 reg.low rm.low :: rest) =
      some (reg.low, .reg rm, rest) :=
  X64.takeRm_reg _ _ reg.low_lt rfl

theorem takeRm_ext {ext : Nat} (small : ext < 8) (r : Reg) (rest : List Byte) :
    takeRm ⟨true, false, false, r.high⟩ (modrmByte 3 ext r.low :: rest) = some (ext, .reg r, rest) :=
  X64.takeRm_reg _ _ small rfl

/-! ### The conditions -/

/-- The conditions by name. `abe` is left out: the jumps and moves take it for "above or equal", the
flag captures for "below or equal". -/
def CONDITIONS : Dict Cond :=
  [("eq", .e), ("neq", .ne), ("gt", .g), ("lt", .l), ("gte", .ge), ("lte", .le), ("above", .a),
   ("below", .b), ("ae", .ae), ("be", .be), ("ble", .be), ("zf", .e), ("e", .e), ("z", .e),
   ("nz", .ne), ("ne", .ne), ("g", .g), ("nle", .g), ("l", .l), ("nge", .l), ("ge", .ge), ("nl", .ge),
   ("le", .le), ("ng", .le), ("a", .a), ("nbe", .a), ("b", .b), ("c", .b), ("nae", .b), ("nb", .ae),
   ("nc", .ae), ("na", .be), ("s", .s), ("ns", .ns), ("o", .o), ("no", .no), ("p", .p), ("pe", .p),
   ("np", .np), ("po", .np)]

def jumpCondition (name : String) : Option Cond :=
  if name = "abe" then some .ae else CONDITIONS.get? name

def setCondition (name : String) : Option Cond :=
  if name = "abe" then some .be else CONDITIONS.get? name

theorem Dict.entry_of_get? {α : Type} {d : Dict α} {key : String} {value : α}
    (found : d.get? key = some value) : (key, value) ∈ d := by
  induction d with
  | nil => cases found
  | cons entry rest ih =>
    obtain ⟨k, v⟩ := entry
    unfold Dict.get? at found
    split at found
    · next same => cases found; rw [same]; exact List.mem_cons_self
    · exact List.mem_cons_of_mem _ (ih found)

theorem jcc_opcode {name : String} {op : Byte} (found : JCC_OPCODE.get? name = some op) :
    ∃ c, jumpCondition name = some c ∧ BitVec.ofNat 8 (0x80 + c.code) = op := by
  have all : ∀ entry ∈ JCC_OPCODE,
      (jumpCondition entry.1).map (fun c => BitVec.ofNat 8 (0x80 + c.code)) = some entry.2 := by decide
  simpa using all _ (Dict.entry_of_get? found)

theorem setcc_opcode {name : String} {op : Byte} (found : SETCC_OPCODE.get? name = some op) :
    ∃ c, setCondition name = some c ∧ BitVec.ofNat 8 (0x90 + c.code) = op := by
  have all : ∀ entry ∈ SETCC_OPCODE,
      (setCondition entry.1).map (fun c => BitVec.ofNat 8 (0x90 + c.code)) = some entry.2 := by decide
  simpa using all _ (Dict.entry_of_get? found)

theorem cmov_opcode {name : String} {op : Byte} (found : CMOV_OPCODE.get? name = some op) :
    ∃ c, jumpCondition name = some c ∧ BitVec.ofNat 8 (0x40 + c.code) = op := by
  have all : ∀ entry ∈ CMOV_OPCODE,
      (jumpCondition entry.1).map (fun c => BitVec.ofNat 8 (0x40 + c.code)) = some entry.2 := by decide
  simpa using all _ (Dict.entry_of_get? found)

theorem index_ok {α : Type} {d : Dict α} {key : String} {value : α} (ok : index d key = .ok value) :
    d.get? key = some value := by
  unfold index at ok
  split at ok
  · next found => cases ok; exact found
  · cases ok

/-! ### Instructions of a call -/

def BinOp.instr (op : BinOp) (dst src : Reg) : Instr :=
  match op with
  | add => .alu .add dst src | sub => .alu .sub dst src | and => .alu .and dst src
  | or => .alu .or dst src | xor => .alu .xor dst src | cmp => .alu .cmp dst src
  | adc => .alu .adc dst src | sbb => .alu .sbb dst src | test => .test dst src

def ImmOp.alu : ImmOp → X64.Alu
  | add => .add | sub => .sub | and => .and | or => .or | xor => .xor | cmp => .cmp

def UnaryOp.instr (op : UnaryOp) (r : Reg) : Instr :=
  match op with
  | not => .unary .not r | neg => .unary .neg r | inc => .unary .inc r | dec => .unary .dec r
  | mul => .wide .mul r | div => .wide .div r | idiv => .wide .idiv r

def ShiftOp.shift : ShiftOp → X64.Shift
  | shl => .shl | shr => .shr | rol => .rol | ror => .ror | sar => .sar | rcl => .rcl | rcr => .rcr

/-- The logarithm of a scale factor. -/
def scaleLog (scale : Int) : Nat :=
  if scale = 1 then 0 else if scale = 2 then 1 else if scale = 4 then 2 else 3

def Mem.ref (m : Mem) : MemRef :=
  ⟨some m.base, m.index.map fun i => (i, scaleLog m.scale), BitVec.ofInt 64 m.disp⟩

/-- `lock cmpxchg [r11], src` -/
def lockedExchange (src : Reg) : List Byte × Instr :=
  ([0xF0, rex 1 (src.num >>> 3) 0 1, 0x0F, 0xB1, modrm 0 (src.num &&& 7) 3], .lockCmpxchg ⟨some .r11, none, 0⟩ src)

/-- The fixed byte strings that are executed, and what they are. -/
def SYSTEM : List (List Byte × Instr) :=
  [([0xEE], .outAl), ([0x0F, 0x30], .wrmsr), ([0x48, 0x0F, 0x01, 0x1F], .lidt ⟨some .rdi, none, 0⟩),
    ([0x48, 0xFF, 0xD0], .callReg .rax), ([0x48, 0xCF], .iretq), ([0x48, 0x0F, 0x07], .sysret),
    ([0xF3, 0xAA], .repStosb), ([0xF3, 0xA4], .repMovsb)] ++
  [.rax, .rcx, .rdx, .rbx, .rsp, .rbp, .rsi, .rdi, .r8, .r9, .r10, .r11, .r12, .r13, .r14, .r15].map lockedExchange

namespace Call

/-- The instructions a call stands for, `disp` being the number in its field. -/
def instrs (disp : Int) : Call → List Instr
  | label _ => []
  | movRegImm64 dst imm => [.movImm dst (BitVec.ofInt 64 imm)]
  | movRegReg dst src => if dst = src then [] else [.mov dst src]
  | load size dst src => [.load size.bytes dst src.ref]
  | store size dst src => [.store size.bytes dst.ref src]
  | binopRegReg op dst src => [op.instr dst src]
  | binopRegImm op dst imm => [.aluImm op.alu dst (BitVec.ofInt 64 imm)]
  | imulRegReg dst src => [.imul dst src]
  | unaryReg op r => [op.instr r]
  | cqo => [.cqo]
  | shiftRegImm8 op r imm => [.shiftImm op.shift r (op.mask imm).toNat]
  | shiftRegCl op r => [.shiftCl op.shift r]
  | setccReg cond dst => [.setcc ((setCondition cond).getD .e) dst, .movzx8 dst dst]
  | jmp _ => [.jmp disp]
  | jcc cond _ => [.jcc ((jumpCondition cond).getD .e) disp]
  | call _ => [.call disp]
  | ret => [.ret]
  | pushReg r => [.push r]
  | popReg r => [.pop r]
  | syscall => [.syscall]
  | hlt => [.hlt]
  | leaRegLabel dst _ => [.leaRip dst disp]
  | inAlDx => [.inAl]
  | cmovRegReg cond dst src => [.cmov ((jumpCondition cond).getD .e) dst src]
  | xchgRegReg a b => if a = b then [] else [Instr.exchange a b]
  | bytes data => (SYSTEM.lookup data).toList

/-- The calls whose bytes decode in the model: all but most fixed byte strings and, since RSP cannot
be an index, the memory operands with that index. -/
def Modelled : Call → Prop
  | bytes data => (SYSTEM.lookup data).isSome
  | load _ _ m | store _ m _ => m.index ≠ some .rsp
  | _ => True

instance (c : Call) : Decidable c.Modelled := by
  cases c <;> unfold Modelled <;> infer_instance

end Call

/-- The integer encoders; labels append nothing. -/
def Call.Integer : Call → Prop
  | load .. | store .. | hlt | inAlDx | bytes _ => False
  | _ => True

instance (c : Call) : Decidable c.Integer := by
  cases c <;> unfold Call.Integer <;> infer_instance


/-! ### Every modelled call spells its instructions -/

section Families

variable {reg rm : Reg} (rest : List Byte)

theorem spells_regReg {op : Byte} {i : Instr}
    (decoded : ∀ rest, decodeOp false true ⟨true, reg.high, false, rm.high⟩ op.toNat
      (modrmByte 3 reg.low rm.low :: rest) = some (i, rest)) : Spells (regReg [op] reg rm) [i] := by
  rw [regReg_eq]
  refine Spells.single (by simp) fun tail => ?_
  simpa [decode_rex] using decoded tail

theorem spells_regExt {op : Byte} {ext : Nat} (small : ext < 8) {r : Reg} {imm : List Byte} {i : Instr}
    (decoded : ∀ rest, decodeOp false true ⟨true, false, false, r.high⟩ op.toNat
      (modrmByte 3 ext r.low :: (imm ++ rest)) = some (i, rest)) :
    Spells (regExt [op] ext r ++ imm) [i] := by
  rw [regExt_eq [op] small]
  refine Spells.single (by simp) fun tail => ?_
  simpa [decode_rex] using decoded tail

end Families

theorem spells_binopRegReg (op : BinOp) (dst src : Reg) :
    Spells (regReg [op.opcode] src dst) [op.instr dst src] := by
  refine spells_regReg fun rest => ?_
  cases op <;> simp [BinOp.opcode, BinOp.instr, decodeOp, decodeRm, takeRm_regReg, X64.Alu.ofField]

theorem spells_movRegReg (dst src : Reg) : Spells (regReg [0x89] src dst) [.mov dst src] :=
  spells_regReg fun rest => by simp [decodeOp, decodeRm, takeRm_regReg]

theorem spells_binopRegImm (op : ImmOp) (dst : Reg) {imm : Int} (lower : -2 ^ 31 ≤ imm)
    (upper : imm < 2 ^ 31) :
    Spells (regExt [0x81] op.ext dst ++ leBytes 4 (ofSigned 32 imm))
      [.aluImm op.alu dst (BitVec.ofInt 64 imm)] := by
  refine spells_regExt (by cases op <;> decide) fun rest => ?_
  cases op <;>
    simp [ImmOp.ext, ImmOp.alu, decodeOp, decodeRm, takeRm_ext, X64.Alu.ofField,
      X64.takeS32_ofSigned rest lower upper]

theorem spells_unaryReg (op : UnaryOp) (r : Reg) : Spells (regExt [op.opcode] op.ext r) [op.instr r] := by
  have spelled : Spells (regExt [op.opcode] op.ext r ++ []) [op.instr r] := by
    refine spells_regExt (by cases op <;> decide) fun rest => ?_
    cases op <;> simp [UnaryOp.opcode, UnaryOp.ext, UnaryOp.instr, decodeOp, decodeRm, takeRm_ext]
  simpa using spelled

theorem spells_shiftRegCl (op : ShiftOp) (r : Reg) :
    Spells (regExt [0xD3] op.ext r) [.shiftCl op.shift r] := by
  have spelled : Spells (regExt [0xD3] op.ext r ++ []) [.shiftCl op.shift r] := by
    refine spells_regExt (by cases op <;> decide) fun rest => ?_
    cases op <;> simp [ShiftOp.ext, ShiftOp.shift, decodeOp, decodeRm, takeRm_ext, X64.Shift.ofField]
  simpa using spelled

theorem mask_range (op : ShiftOp) (imm : Int) : 0 ≤ op.mask imm ∧ op.mask imm < 256 := by
  cases op <;> simp only [ShiftOp.mask] <;> omega

theorem spells_shiftRegImm8 (op : ShiftOp) (r : Reg) (imm : Int) :
    Spells (regExt [0xC1] op.ext r ++ u8 (op.mask imm)) [.shiftImm op.shift r (op.mask imm).toNat] := by
  obtain ⟨lower, upper⟩ := mask_range op imm
  have count : u8 (op.mask imm) = [BitVec.ofNat 8 (op.mask imm).toNat] := by
    have wrapped : ofSigned 8 (op.mask imm) = (op.mask imm).toNat := by
      rw [X64.ofSigned, Int.emod_eq_of_lt lower (by simpa using upper)]
    simp [u8, leBytes, wrapped]
  have value : (BitVec.ofNat 8 (op.mask imm).toNat).toNat = (op.mask imm).toNat := by
    simp only [BitVec.toNat_ofNat]
    omega
  rw [count]
  refine spells_regExt (by cases op <;> decide) fun rest => ?_
  generalize (op.mask imm).toNat = n at value ⊢
  cases op <;>
    simp [ShiftOp.ext, ShiftOp.shift, decodeOp, decodeRm, takeRm_ext, X64.Shift.ofField, X64.take8, value]

theorem spells_two {op : Byte} {i : Instr} {reg rm : Reg}
    (decoded : ∀ rest, decodeTwo true ⟨true, reg.high, false, rm.high⟩ op.toNat
      (modrmByte 3 reg.low rm.low :: rest) = some (i, rest)) : Spells (regReg [0x0F, op] reg rm) [i] := by
  rw [regReg_eq]
  refine Spells.single (by simp) fun tail => ?_
  simpa [decode_rex, decodeOp, X64.take8] using decoded tail

theorem spells_imulRegReg (dst src : Reg) : Spells (regReg [0x0F, 0xAF] dst src) [.imul dst src] :=
  spells_two fun rest => by simp [decodeTwo, takeRm_regReg]

theorem spells_movzx8 (dst src : Reg) : Spells (regReg [0x0F, 0xB6] dst src) [.movzx8 dst src] :=
  spells_two fun rest => by simp [decodeTwo, takeRm_regReg]

/-- The opcode of a condition keeps its code. -/
theorem cond_opcode (c : Cond) {row : Nat} (small : row < 16) :
    (BitVec.ofNat 8 (16 * row + c.code)).toNat / 16 = row ∧
      (BitVec.ofNat 8 (16 * row + c.code)).toNat % 16 = c.code := by
  have := c.code_lt
  simp only [BitVec.toNat_ofNat]
  omega

theorem spells_cmovRegReg (c : Cond) (dst src : Reg) :
    Spells (regReg [0x0F, BitVec.ofNat 8 (0x40 + c.code)] dst src) [.cmov c dst src] := by
  obtain ⟨row, code⟩ := cond_opcode c (by decide : 4 < 16)
  refine spells_two fun rest => ?_
  simp only [Nat.reduceMul] at row code
  generalize (BitVec.ofNat 8 (64 + c.code)).toNat = op at row code ⊢
  obtain ⟨notSyscall, notSysret, notWrmsr⟩ : op ≠ 5 ∧ op ≠ 7 ∧ op ≠ 48 := by omega
  simp [decodeTwo, row, code, notSyscall, notSysret, notWrmsr, takeRm_regReg]

/-- The first half of a flag capture; the REX prefix makes every register a byte register. -/
theorem spells_setcc (c : Cond) (dst : Reg) :
    Spells ((if dst.num ≥ 8 then [rex 0 0 0 1] else if dst.num ∈ [4, 5, 6, 7] then [rex 0 0 0 0] else []) ++
      [0x0F, BitVec.ofNat 8 (0x90 + c.code), modrm 3 0 (dst.num &&& 7)]) [.setcc c dst] := by
  obtain ⟨row, code⟩ := cond_opcode c (by decide : 9 < 16)
  simp only [Nat.reduceMul] at row code
  have operand (p : Rex) (tail : List Byte) (prefixed : Bool) (hb : p.b = dst.high)
      (byte : X64.byteReg prefixed dst = some dst) :
      decodeTwo prefixed p (BitVec.ofNat 8 (144 + c.code)).toNat
        (modrm 3 0 (dst.num &&& 7) :: tail) = some (.setcc c dst, tail) := by
    rw [and_seven, modrm_eq (by decide) (by decide) dst.low_lt]
    have taken := X64.takeRm_reg p tail (by decide : 0 < 8) hb
    generalize (BitVec.ofNat 8 (144 + c.code)).toNat = op at row code ⊢
    obtain ⟨notSyscall, notSysret, notWrmsr⟩ : op ≠ 5 ∧ op ≠ 7 ∧ op ≠ 48 := by omega
    simp [decodeTwo, row, code, notSyscall, notSysret, notWrmsr, taken, byte]
  refine Spells.single (by simp) fun tail => ?_
  have extended : rex 0 0 0 1 = Rex.byte ⟨false, false, false, true⟩ := rfl
  have plain : rex 0 0 0 0 = Rex.byte ⟨false, false, false, false⟩ := rfl
  by_cases high : dst.num ≥ 8
  · rw [if_pos high, extended]
    simp only [List.cons_append, List.nil_append, decode_rex]
    simpa [decodeOp, X64.take8] using
      operand ⟨false, false, false, true⟩ tail true (by simpa [Reg.high] using high) (by simp [X64.byteReg])
  · rw [if_neg high]
    by_cases named : dst.num ∈ [4, 5, 6, 7]
    · rw [if_pos named, plain]
      simp only [List.cons_append, List.nil_append, decode_rex]
      simpa [decodeOp, X64.take8] using
        operand ⟨false, false, false, false⟩ tail true (by simpa [Reg.high] using high) (by simp [X64.byteReg])
    · rw [if_neg named]
      have low : dst.num < 4 := by simp at named; omega
      have decoded := operand .absent tail false (by simpa [Reg.high, Rex.absent] using high)
        (by simp [X64.byteReg, low])
      simpa [decode, X64.takeOpsize, X64.takeRex, Rex.ofByte, X64.take8, decodeOp] using decoded

theorem spells_pushReg (r : Reg) :
    Spells ((if r.num ≥ 8 then [rex 0 0 0 1] else []) ++ [BitVec.ofNat 8 (0x50 + (r.num &&& 7))]) [.push r] :=
  Spells.single (by simp) fun tail => by cases r <;> rfl

theorem spells_popReg (r : Reg) :
    Spells ((if r.num ≥ 8 then [rex 0 0 0 1] else []) ++ [BitVec.ofNat 8 (0x58 + (r.num &&& 7))]) [.pop r] :=
  Spells.single (by simp) fun tail => by cases r <;> rfl

section Transfers

variable {disp : Int} (lower : -2 ^ 31 ≤ disp) (upper : disp < 2 ^ 31)
include lower upper

theorem spells_jmp : Spells ([0xE9] ++ leBytes 4 (ofSigned 32 disp)) [.jmp disp] := by
  refine Spells.single (by simp) fun tail => ?_
  simp [decode, X64.takeOpsize, X64.takeRex, Rex.ofByte, X64.take8, decodeOp,
    X64.takeS32_ofSigned tail lower upper]

theorem spells_call : Spells ([0xE8] ++ leBytes 4 (ofSigned 32 disp)) [.call disp] := by
  refine Spells.single (by simp) fun tail => ?_
  simp [decode, X64.takeOpsize, X64.takeRex, Rex.ofByte, X64.take8, decodeOp,
    X64.takeS32_ofSigned tail lower upper]

theorem spells_jcc (c : Cond) :
    Spells ([0x0F, BitVec.ofNat 8 (0x80 + c.code)] ++ leBytes 4 (ofSigned 32 disp)) [.jcc c disp] := by
  refine Spells.single (by simp) fun tail => ?_
  obtain ⟨row, code⟩ := cond_opcode c (by decide : 8 < 16)
  simp only [Nat.reduceMul] at row code
  have taken : decodeTwo false .absent (BitVec.ofNat 8 (128 + c.code)).toNat
      (leBytes 4 (ofSigned 32 disp) ++ tail) = some (.jcc c disp, tail) := by
    generalize (BitVec.ofNat 8 (128 + c.code)).toNat = op at row code ⊢
    obtain ⟨notSyscall, notSysret, notWrmsr⟩ : op ≠ 5 ∧ op ≠ 7 ∧ op ≠ 48 := by omega
    simp [decodeTwo, row, code, notSyscall, notSysret, notWrmsr, X64.takeS32_ofSigned tail lower upper]
  simpa [decode, X64.takeOpsize, X64.takeRex, Rex.ofByte, X64.take8, decodeOp] using taken

theorem spells_leaRegLabel (dst : Reg) :
    Spells ([rex 1 (dst.num >>> 3) 0 0, 0x8D, modrm 0 (dst.num &&& 7) 0b101] ++ leBytes 4 (ofSigned 32 disp))
      [.leaRip dst disp] := by
  refine Spells.single (by simp) fun tail => ?_
  have pfx := rex_eq true dst.high false false
  simp only [Bool.toNat_true, Bool.toNat_false] at pfx
  rw [shift_three, pfx, and_seven, modrm_eq (by decide) dst.low_lt (by decide)]
  have taken := X64.takeRm_rip ⟨true, dst.high, false, false⟩ tail dst.low_lt lower upper
  simp only [List.cons_append, List.nil_append, decode_rex]
  simp [decodeOp, decodeRm, taken]

end Transfers

theorem spells_xchgRegReg (a b : Reg) :
    Spells (xchgRegRegBytes a b) (if a = b then [] else [Instr.exchange a b]) := by
  unfold xchgRegRegBytes
  by_cases same : a = b
  · rw [if_pos same, if_pos same]
    exact .nil
  -- The short forms exchange with RAX; they are the same whichever operand it is.
  have short (r : Reg) : Spells [if r.num ≥ 8 then 0x49#8 else 0x48#8, BitVec.ofNat 8 (0x90 + (r.num &&& 7))]
      [Instr.exchange .rax r] := Spells.single (by simp) fun tail => by cases r <;> rfl
  have rax (r : Reg) (zero : r.num = 0) : r = .rax := Reg.num_injective zero
  rw [if_neg same, if_neg same]
  by_cases first : a.num = 0
  · rw [if_pos first, rax a first]
    exact short b
  rw [if_neg first]
  by_cases second : b.num = 0
  · rw [if_pos second, rax b second, Instr.exchange_comm]
    exact short a
  rw [if_neg second]
  exact spells_regReg fun rest => by simp [decodeOp, decodeRm, takeRm_regReg]

/-! ### Constants -/

theorem ofInt_emod (imm : Int) : BitVec.ofInt 64 (imm % 2 ^ 64) = BitVec.ofInt 64 imm := by
  apply BitVec.eq_of_toInt_eq
  rw [BitVec.toInt_ofInt, BitVec.toInt_ofInt]
  exact Int.emod_bmod (x := imm) (n := 2 ^ 64)

theorem ofNat_toNat {imm : Int} (lower : 0 ≤ imm) : BitVec.ofNat 64 imm.toNat = BitVec.ofInt 64 imm := by
  rw [← BitVec.ofInt_natCast, Int.toNat_of_nonneg lower]

/-- The opcode that carries a register in its low bits. -/
theorem reg_opcode (r : Reg) :
    (BitVec.ofNat 8 (0xB8 + (r.num &&& 7))).toNat / 8 = 0xB8 / 8 ∧
      (BitVec.ofNat 8 (0xB8 + (r.num &&& 7))).toNat % 8 = r.low := by
  cases r <;> decide

theorem decodeOp_movImm (opsize prefixed : Bool) (p : Rex) (r : Reg) (v : Nat) (rest : List Byte)
    (hb : p.b = r.high) (plain : opsize = false) :
    decodeOp opsize prefixed p (BitVec.ofNat 8 (0xB8 + (r.num &&& 7))).toNat
        (leBytes (if p.w then 8 else 4) v ++ rest) =
      some (.movImm r (BitVec.ofNat 64 (v % 256 ^ (if p.w then 8 else 4))), rest) := by
  obtain ⟨row, low⟩ := reg_opcode r
  generalize (BitVec.ofNat 8 (0xB8 + (r.num &&& 7))).toNat = op at row low ⊢
  have notTwo : op ≠ 15 := by omega
  simp [decodeOp, row, low, notTwo, plain, hb]

theorem spells_movImm64 (r : Reg) {v : Int} (lower : 0 ≤ v) (upper : v < 2 ^ 64) :
    Spells ([rex 1 0 0 (r.num >>> 3), BitVec.ofNat 8 (0xB8 + (r.num &&& 7))] ++ u64 v)
      [.movImm r (BitVec.ofInt 64 v)] := by
  have pfx := rex_eq true false false r.high
  simp only [Bool.toNat_true, Bool.toNat_false] at pfx
  have value : ofSigned 64 v % 256 ^ 8 = v.toNat := by
    rw [X64.ofSigned, Int.emod_eq_of_lt lower upper]
    omega
  refine Spells.single (by simp) fun tail => ?_
  have decoded := decodeOp_movImm false true ⟨true, false, false, r.high⟩ r (ofSigned 64 v) tail rfl rfl
  simp only [if_true, value, ofNat_toNat lower] at decoded
  simpa [shift_three, pfx, decode_rex, u64] using decoded

theorem spells_movImm32 (r : Reg) {v : Int} (lower : 0 ≤ v) (upper : v ≤ 0xFFFFFFFF) :
    Spells ((if r.num ≥ 8 then [0x41#8] else []) ++ [BitVec.ofNat 8 (0xB8 + (r.num &&& 7))] ++ u32 v)
      [.movImm r (BitVec.ofInt 64 v)] := by
  have value : ofSigned 32 v % 256 ^ 4 = v.toNat := by
    rw [X64.ofSigned, Int.emod_eq_of_lt lower (by omega)]
    omega
  refine Spells.single (by simp) fun tail => ?_
  by_cases high : r.num ≥ 8
  · have decoded := decodeOp_movImm false true ⟨false, false, false, true⟩ r (ofSigned 32 v) tail
      (by simpa [Reg.high] using high) rfl
    simp only [Bool.false_eq_true, if_false, value, ofNat_toNat lower] at decoded
    have extended : 0x41#8 = Rex.byte ⟨false, false, false, true⟩ := rfl
    rw [if_pos high, extended]
    simpa [decode_rex, u32] using decoded
  · have decoded := decodeOp_movImm false false .absent r (ofSigned 32 v) tail
      (by simpa [Reg.high, Rex.absent] using high) rfl
    simp only [Rex.absent, Bool.false_eq_true, if_false, value, ofNat_toNat lower] at decoded
    rw [if_neg high]
    have row := (reg_opcode r).1
    have noOpsize : BitVec.ofNat 8 (0xB8 + (r.num &&& 7)) ≠ 0x66#8 := by cases r <;> decide
    have noRex : (BitVec.ofNat 8 (0xB8 + (r.num &&& 7))).toNat / 16 ≠ 4 := by omega
    simp only [List.nil_append, List.cons_append, decode, X64.takeOpsize, if_neg noOpsize,
      X64.takeRex_other _ noRex, X64.take8, Option.bind_eq_bind, Option.bind_some, Option.isSome_none,
      Option.getD_none, Rex.absent, u32]
    exact decoded

theorem spells_movRegImm64 (deterministic : Bool) (dst : Reg) (imm : Int) :
    Spells (movRegImm64Bytes deterministic dst imm) [.movImm dst (BitVec.ofInt 64 imm)] := by
  have lower : 0 ≤ imm % 2 ^ 64 := Int.emod_nonneg _ (by decide)
  have upper : imm % 2 ^ 64 < 2 ^ 64 := Int.emod_lt_of_pos _ (by decide)
  rw [← ofInt_emod]
  simp only [movRegImm64Bytes]
  generalize imm % 2 ^ 64 = v at lower upper ⊢
  split
  · exact spells_movImm64 dst lower upper
  split
  · next zero => rw [zero]; exact spells_movImm32 dst (le_refl 0) (by decide)
  split
  · next small => exact spells_movImm32 dst lower small
  next notSmall =>
  have negative : ¬v < 0x80000000 := by omega
  rw [if_neg negative]
  split
  · next signed =>
    obtain ⟨-, low, high⟩ := signed
    have same : BitVec.ofInt 64 v = BitVec.ofInt 64 (v - 2 ^ 64) := by
      rw [← ofInt_emod (v - 2 ^ 64), ← ofInt_emod v, Int.sub_emod_right]
    rw [same]
    generalize v - 2 ^ 64 = w at low high ⊢
    have spelled : Spells (regExt [0xC7] 0 dst ++ u32 w) [.movImm dst (BitVec.ofInt 64 w)] :=
      spells_regExt (by decide) fun rest => by
        simp [decodeOp, decodeRm, takeRm_ext, u32,
          X64.takeS32_ofSigned rest (by omega : -2 ^ 31 ≤ w) (by omega : w < 2 ^ 31)]
    simpa [regExt] using spelled
  · exact spells_movImm64 dst lower upper

/-! ### Memory operands -/

theorem sib_eq {s i b : Nat} (hs : s < 4) (hi : i < 8) (hb : b < 8) :
    BitVec.ofNat 8 (s <<< 6 ||| i <<< 3 ||| b) = modrmByte s i b := by
  have all : ∀ s : Fin 4, ∀ i b : Fin 8,
      BitVec.ofNat 8 (s.val <<< 6 ||| i.val <<< 3 ||| b.val) = modrmByte s i b := by decide
  exact all ⟨s, hs⟩ ⟨i, hi⟩ ⟨b, hb⟩

theorem scaleBits_ok {scale : Int} {s : Nat} (ok : scaleBits scale = .ok s) :
    s = scaleLog scale ∧ s < 4 := by
  unfold scaleBits at ok
  unfold scaleLog
  split_ifs at ok <;> cases ok <;> simp [*]

/-- The operand bytes read back as the operand. -/
theorem takeRm_memOperand {field : Nat} (small : field < 8) {m : Mem} {x : Nat} {bs : List Byte}
    (ok : memOperand field m = .ok (x, bs)) (notRsp : m.index ≠ some .rsp) :
    ∃ hx : Bool, x = hx.toNat ∧ ∀ (p : Rex) (rest : List Byte), p.b = m.base.high → p.x = hx →
      takeRm p (bs ++ rest) = some (field, .mem m.ref, rest) := by
  obtain ⟨base, disp, index, scale⟩ := m
  -- The displacement bytes and the mod field that announces them.
  have displaced (mod : Nat) (tail : List Byte)
      (got : memDisp mod disp = .ok tail)
      (hmod : mod = if disp ≠ 0 ∨ base.low = 5 then 2 else 0) (rest : List Byte) :
      X64.takeDisp mod (tail ++ rest) = some (disp, rest) ∧ mod < 3 ∧ ¬(mod = 0 ∧ base.low = 5) := by
    unfold memDisp at got
    split at hmod
    · subst hmod
      obtain ⟨lower, upper, rfl⟩ := s32_range got
      simp [X64.takeDisp, X64.takeS32_ofSigned rest lower upper]
    · next none =>
      subst hmod
      cases got
      have zero : disp = 0 := by simp at none; exact none.1
      have notFive : base.low ≠ 5 := by simp at none; exact none.2
      simp [X64.takeDisp, zero, notFive]
  simp only [memOperand, and_seven] at ok
  cases sibbed : memSib ⟨base, disp, index, scale⟩ with
  | error e => rw [sibbed] at ok; cases ok
  | ok sib =>
    obtain ⟨x', sib⟩ := sib
    rw [sibbed] at ok
    cases got : memDisp (if disp ≠ 0 ∨ base.low = 5 then 2 else 0) disp with
    | error e => simp only [bind, Except.bind, got] at ok; cases ok
    | ok tail =>
      simp only [bind, Except.bind, got] at ok
      cases ok
      cases index with
      | none =>
        simp only [memSib, and_seven] at sibbed
        cases sibbed
        refine ⟨false, rfl, fun p rest hb hx => ?_⟩
        change p.b = base.high at hb
        obtain ⟨taken, lt, noRip⟩ := displaced _ _ got rfl rest
        generalize (if disp ≠ 0 ∨ base.low = 5 then 2 else 0) = mod at taken lt noRip ⊢
        have fits : mod < 4 := by omega
        by_cases four : base.low = 4
        · have index : Reg.ofFields p.x 4 = .rsp := by rw [hx]; rfl
          simp only [if_pos four, reduceCtorEq, if_false,
            sib_eq (by decide : 0 < 4) (by decide : 4 < 8) base.low_lt,
            modrm_eq fits small (by decide : 4 < 8), List.cons_append, List.nil_append]
          rw [X64.takeRm_sib small lt taken (by decide : 0 < 4) (by decide : 4 < 8) hb
            (fun five => noRip ⟨five.2, five.1⟩), index]
          simp [Mem.ref]
        · simp only [if_neg four, if_true, modrm_eq fits small base.low_lt, List.cons_append,
            List.nil_append]
          rw [X64.takeRm_base small lt taken hb four noRip]
          simp [Mem.ref]
      | some i =>
        cases scaled : scaleBits scale with
        | error e => simp only [memSib, bind, Except.bind, scaled] at sibbed; cases sibbed
        | ok s =>
          obtain ⟨rfl, hs⟩ := scaleBits_ok scaled
          simp only [memSib, bind, Except.bind, scaled, shift_three, and_seven] at sibbed
          cases sibbed
          refine ⟨i.high, rfl, fun p rest hb hx => ?_⟩
          change p.b = base.high at hb
          obtain ⟨taken, lt, noRip⟩ := displaced _ _ got rfl rest
          generalize (if disp ≠ 0 ∨ base.low = 5 then 2 else 0) = mod at taken lt noRip ⊢
          have fits : mod < 4 := by omega
          have other : i ≠ .rsp := fun same => notRsp (by rw [same])
          simp only [reduceCtorEq, if_false, sib_eq hs i.low_lt base.low_lt,
            modrm_eq fits small (by decide : 4 < 8), List.cons_append, List.nil_append]
          rw [X64.takeRm_sib small lt taken hs i.low_lt hb (fun five => noRip ⟨five.2, five.1⟩), hx,
            Reg.ofFields_high_low, if_neg other]
          simp [Mem.ref]

section SizedForms

variable {r : Reg} {m : Mem} {bs : List Byte} (notRsp : m.index ≠ some .rsp)
include notRsp

/-- A 64-bit form with a one-byte opcode. -/
theorem spells_memOp {op : Byte} {i : Instr} (ok : memOp [op] r m = .ok bs)
    (decoded : ∀ (p : Rex) (tail rest : List Byte), p.w = true →
      takeRm p tail = some (r.low, .mem m.ref, rest) → p.r = r.high →
        decodeOp false true p op.toNat tail = some (i, rest)) : Spells bs [i] := by
  unfold memOp at ok
  cases operand : memOperand (r.num &&& 7) m with
  | error e => rw [operand] at ok; cases ok
  | ok v =>
    obtain ⟨x, tail⟩ := v
    rw [operand] at ok
    cases ok
    rw [and_seven] at operand
    obtain ⟨hx, rfl, taken⟩ := takeRm_memOperand r.low_lt operand notRsp
    have pfx := rex_eq true r.high hx m.base.high
    simp only [Bool.toNat_true] at pfx
    refine Spells.single (by simp) fun rest => ?_
    simp only [shift_three, pfx, List.cons_append, List.nil_append, decode_rex]
    exact decoded _ _ _ rfl (taken ⟨true, r.high, hx, m.base.high⟩ rest rfl rfl) rfl

theorem spells_load64 (ok : memOp [0x8B] r m = .ok bs) : Spells bs [.load 8 r m.ref] :=
  spells_memOp notRsp ok fun p tail rest w taken hr => by
    simp [decodeOp, decodeRm, taken, hr, X64.operandBytes, w]

theorem spells_store64 (ok : memOp [0x89] r m = .ok bs) : Spells bs [.store 8 m.ref r] :=
  spells_memOp notRsp ok fun p tail rest w taken hr => by
    simp [decodeOp, decodeRm, taken, hr, X64.operandBytes, w]

/-- The zero-extending loads of one and two bytes. -/
theorem spells_memOpTwo {op : Byte} {n : Nat} (which : op = 0xB6 ∧ n = 1 ∨ op = 0xB7 ∧ n = 2)
    (ok : memOp [0x0F, op] r m = .ok bs) : Spells bs [.load n r m.ref] := by
  unfold memOp at ok
  cases operand : memOperand (r.num &&& 7) m with
  | error e => rw [operand] at ok; cases ok
  | ok v =>
    obtain ⟨x, tail⟩ := v
    rw [operand] at ok
    cases ok
    rw [and_seven] at operand
    obtain ⟨hx, rfl, taken⟩ := takeRm_memOperand r.low_lt operand notRsp
    have pfx := rex_eq true r.high hx m.base.high
    simp only [Bool.toNat_true] at pfx
    refine Spells.single (by simp) fun rest => ?_
    have read := taken ⟨true, r.high, hx, m.base.high⟩ rest rfl rfl
    simp only [shift_three, pfx, List.cons_append, List.nil_append, decode_rex]
    rcases which with ⟨rfl, rfl⟩ | ⟨rfl, rfl⟩ <;>
      simp [decodeOp, X64.take8, decodeTwo, read]

theorem spells_load32 (ok : mov32RegMemBytes r m = .ok bs) : Spells bs [.load 4 r m.ref] := by
  unfold mov32RegMemBytes at ok
  cases operand : memOperand (r.num &&& 7) m with
  | error e => rw [operand] at ok; cases ok
  | ok v =>
    obtain ⟨x, tail⟩ := v
    rw [operand] at ok
    cases ok
    rw [and_seven] at operand
    obtain ⟨hx, rfl, taken⟩ := takeRm_memOperand r.low_lt operand notRsp
    have pfx := rex_eq false r.high hx m.base.high
    simp only [Bool.toNat_false] at pfx
    refine Spells.single (by simp) fun rest => ?_
    have form (p : Rex) (prefixed : Bool) (hr : p.r = r.high) (w : p.w = false)
        (read : takeRm p (tail ++ rest) = some (r.low, .mem m.ref, rest)) :
        decodeOp false prefixed p 0x8B (tail ++ rest) = some (.load 4 r m.ref, rest) := by
      simp [decodeOp, decodeRm, read, hr, X64.operandBytes, w]
    by_cases need : r.num ≥ 8 ∨ m.base.num ≥ 8 ∨ hx.toNat ≠ 0
    · rw [if_pos need]
      simp only [shift_three, pfx, List.cons_append, List.nil_append, decode_rex]
      exact form _ true rfl rfl (taken ⟨false, r.high, hx, m.base.high⟩ rest rfl rfl)
    · rw [if_neg need]
      push Not at need
      obtain ⟨lowR, lowB, noIndex⟩ := need
      refine (decode_plain (by decide : 0x8B#8 ≠ 0x66#8) (by decide) (tail ++ rest)).trans ?_
      refine form .absent false ?_ rfl (taken .absent rest ?_ ?_)
      · simp [Rex.absent, Reg.high]; omega
      · simp [Rex.absent, Reg.high]; omega
      · cases hx <;> simp_all [Rex.absent]

theorem spells_storeSized {op : Byte} {size n : Nat}
    (which : op = 0x88 ∧ size = 8 ∧ n = 1 ∨ op = 0x89 ∧ size = 16 ∧ n = 2 ∨ op = 0x89 ∧ size = 32 ∧ n = 4)
    (ok : memOpSized op r m size = .ok bs) : Spells bs [.store n m.ref r] := by
  unfold memOpSized at ok
  cases operand : memOperand (r.num &&& 7) m with
  | error e => rw [operand] at ok; cases ok
  | ok v =>
    obtain ⟨x, tail⟩ := v
    rw [operand] at ok
    cases ok
    rw [and_seven] at operand
    obtain ⟨hx, rfl, taken⟩ := takeRm_memOperand r.low_lt operand notRsp
    have pfx := rex_eq false r.high hx m.base.high
    simp only [Bool.toNat_false] at pfx
    refine Spells.single (by simp) fun rest => ?_
    have read := taken ⟨false, r.high, hx, m.base.high⟩ rest rfl rfl
    rcases which with ⟨rfl, rfl, rfl⟩ | ⟨rfl, rfl, rfl⟩ | ⟨rfl, rfl, rfl⟩
    · -- Without a prefix the register is one of the four whose low byte needs none.
      by_cases need : (8 = 8 ∧ r.num ∈ [4, 5, 6, 7]) ∨ r.num ≥ 8 ∨ m.base.num ≥ 8 ∨ hx.toNat ≠ 0
      · have need' : ((8 = 8 ∧ r.num ∈ [4, 5, 6, 7]) ∨ r.num ≥ 8 ∨ m.base.num ≥ 8 ∨ hx.toNat ≠ 0) ∨ 8 ≠ 8 :=
          Or.inl need
        rw [if_pos need', if_neg (by decide : ¬(8 : Nat) = 16)]
        simp only [shift_three, pfx, List.cons_append, List.nil_append, decode_rex]
        simp [decodeOp, decodeRm, read, X64.byteReg]
      · have need' : ¬(((8 = 8 ∧ r.num ∈ [4, 5, 6, 7]) ∨ r.num ≥ 8 ∨ m.base.num ≥ 8 ∨ hx.toNat ≠ 0) ∨ 8 ≠ 8) :=
          fun both => both.elim need (fun no => no rfl)
        rw [if_neg need', if_neg (by decide : ¬(8 : Nat) = 16)]
        push Not at need
        obtain ⟨named, lowR, lowB, noIndex⟩ := need
        have small : r.num < 4 := by have := named rfl; simp at this; omega
        refine (decode_plain (by decide : 0x88#8 ≠ 0x66#8) (by decide) (tail ++ rest)).trans ?_
        have plain := taken .absent rest (by simp [Rex.absent, Reg.high]; omega)
          (by cases hx <;> simp_all [Rex.absent])
        have low : Reg.ofFields Rex.absent.r r.low = r := by
          have plainHigh : Rex.absent.r = r.high := by simp [Reg.high, Rex.absent]; omega
          rw [plainHigh, Reg.ofFields_high_low]
        simp [decodeOp, decodeRm, plain, X64.byteReg, low, small]
    · rw [if_pos (by decide : (16 : Nat) = 16), if_pos (Or.inr (by decide : (16 : Nat) ≠ 8))]
      simp only [shift_three, pfx, List.cons_append, List.nil_append, decode_opsize_rex]
      simp [decodeOp, decodeRm, read, X64.operandBytes]
    · rw [if_neg (by decide : ¬(32 : Nat) = 16), if_pos (Or.inr (by decide : (32 : Nat) ≠ 8))]
      simp only [shift_three, pfx, List.cons_append, List.nil_append, decode_rex]
      simp [decodeOp, decodeRm, read, X64.operandBytes]

end SizedForms

/-! ### The fixed byte strings -/

theorem lockedExchange_decodes (src : Reg) (tail : List Byte) :
    X64.decode ((lockedExchange src).1 ++ tail) = some ((lockedExchange src).2, tail) := by
  cases src <;> rfl

theorem spells_system {bs : List Byte} {i : Instr} (found : SYSTEM.lookup bs = some i) : Spells bs [i] := by
  have all : ∀ p ∈ SYSTEM, p.1 ≠ [] ∧ ∀ tail, X64.decode (p.1 ++ tail) = some (p.2, tail) := by
    intro p member
    rcases List.mem_append.mp member with fixed | locked
    · simp only [List.mem_cons, List.not_mem_nil, or_false] at fixed
      rcases fixed with rfl | rfl | rfl | rfl | rfl | rfl | rfl | rfl <;> exact ⟨by simp, fun _ => rfl⟩
    · obtain ⟨src, -, rfl⟩ := List.mem_map.mp locked
      exact ⟨by simp [lockedExchange], lockedExchange_decodes src⟩
  obtain ⟨before, after, shape, -⟩ := List.lookup_eq_some_iff.mp found
  obtain ⟨nonempty, decoded⟩ := all (bs, i) (by simp [shape])
  exact .single nonempty decoded

end Aclm.Encoder
