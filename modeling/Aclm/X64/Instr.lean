import Aclm.X64.Register
import Aclm.X64.Flags
import Aclm.X64.Memory

/-! The modelled instructions and what each does to the processor.
Instruction bytes are fetched from the program text, which stores do not change. -/

set_option autoImplicit false

namespace Aclm.X64

/-- `[base + index * 2 ^ scale + disp]` -/
structure MemRef where
  base : Option Reg
  index : Option (Reg × Nat)
  disp : Word
  deriving DecidableEq, Repr

inductive Alu where
  | add | or | adc | sbb | and | sub | xor | cmp
  deriving DecidableEq, Repr

inductive Unary where
  | not | neg | inc | dec
  deriving DecidableEq, Repr

inductive Shift where
  | rol | ror | rcl | rcr | shl | shr | sar
  deriving DecidableEq, Repr

/-- The operations on the pair RDX:RAX. -/
inductive Wide where
  | mul | div | idiv
  deriving DecidableEq, Repr

inductive Instr where
  | movImm (dst : Reg) (v : Word)
  | mov (dst src : Reg)
  /-- A load of `n` bytes, zero-extended. -/
  | load (n : Nat) (dst : Reg) (src : MemRef)
  | store (n : Nat) (dst : MemRef) (src : Reg)
  | lea (dst : Reg) (src : MemRef)
  | leaRip (dst : Reg) (disp : Int)
  | alu (op : Alu) (dst src : Reg)
  | aluImm (op : Alu) (dst : Reg) (imm : Word)
  | test (a b : Reg)
  | imul (dst src : Reg)
  | wide (op : Wide) (src : Reg)
  | unary (op : Unary) (dst : Reg)
  | cqo
  | shiftImm (op : Shift) (dst : Reg) (count : Nat)
  | shiftCl (op : Shift) (dst : Reg)
  | setcc (c : Cond) (dst : Reg)
  | movzx8 (dst src : Reg)
  | cmov (c : Cond) (dst src : Reg)
  | xchg (a b : Reg)
  | push (r : Reg)
  | pop (r : Reg)
  | jmp (disp : Int)
  | jcc (c : Cond) (disp : Int)
  | call (disp : Int)
  | ret
  | syscall
  | inAl
  | hlt
  | outAl
  | wrmsr
  | lidt (src : MemRef)
  | callReg (r : Reg)
  | iretq
  | sysret
  /-- The locked compare-exchange of the word at `dst` with RAX. -/
  | lockCmpxchg (dst : MemRef) (src : Reg)
  | repStosb
  | repMovsb
  deriving DecidableEq, Repr

/-- An exchange in its one spelling: the operands are unordered. -/
def Instr.exchange (a b : Reg) : Instr := if a.num ≤ b.num then .xchg a b else .xchg b a

theorem Instr.exchange_comm (a b : Reg) : Instr.exchange a b = Instr.exchange b a := by
  unfold exchange
  rcases lt_trichotomy a.num b.num with less | same | more
  · rw [if_pos less.le, if_neg (by omega)]
  · rw [Reg.num_injective same]
  · rw [if_neg (by omega), if_pos more.le]

/-- What the outside sees of a run. -/
inductive Event where
  | syscall (number : Word) (args : List Word)
  | input (port : Word) (value : Byte)
  | output (port : Word) (value : Byte)
  | wrmsr (register value : Word)
  | lidt (limit base : Word)
  deriving DecidableEq

structure Cpu where
  reg : Reg → Word
  flags : Flags
  mem : Memory
  trace : List Event

/-- What the instructions leave open: the kernel behind a system call (`none` where the call does
not return), the devices behind a port, and the flags the architecture leaves undefined. -/
structure Env where
  kernel : Cpu → Option Cpu
  input : List Event → Word → Byte
  undefined : Flags → Word → Word → Flags

/-- Devices that send zeros and a kernel in which every call is the last one. -/
def Env.silent : Env := ⟨fun _ => none, fun _ _ => 0, fun f _ _ => f⟩

namespace Cpu

/-- Every register holds `v`, and the memory zeros. -/
def filled (v : Word) : Cpu := ⟨fun _ => v, ⟨false, false, false, false, false, false, false⟩, fun _ => 0, []⟩

def set (c : Cpu) (r : Reg) (v : Word) : Cpu := { c with reg := setReg c.reg r v }

def setFlags (c : Cpu) (f : Flags) : Cpu := { c with flags := f }

def setMem (c : Cpu) (m : Memory) : Cpu := { c with mem := m }

section Fields

variable (c : Cpu) (r s : Reg) (v : Word) (f : Flags) (m : Memory)

@[simp] theorem set_reg : (c.set r v).reg s = if s = r then v else c.reg s := rfl
@[simp] theorem set_flags : (c.set r v).flags = c.flags := rfl
@[simp] theorem set_mem : (c.set r v).mem = c.mem := rfl
@[simp] theorem set_trace : (c.set r v).trace = c.trace := rfl
@[simp] theorem setFlags_reg : (c.setFlags f).reg = c.reg := rfl
@[simp] theorem setFlags_flags : (c.setFlags f).flags = f := rfl
@[simp] theorem setFlags_mem : (c.setFlags f).mem = c.mem := rfl
@[simp] theorem setFlags_trace : (c.setFlags f).trace = c.trace := rfl
@[simp] theorem setMem_reg : (c.setMem m).reg = c.reg := rfl
@[simp] theorem setMem_flags : (c.setMem m).flags = c.flags := rfl
@[simp] theorem setMem_mem : (c.setMem m).mem = m := rfl
@[simp] theorem setMem_trace : (c.setMem m).trace = c.trace := rfl

end Fields

theorem set_same (c : Cpu) (r : Reg) : c.set r (c.reg r) = c := by
  have regs : setReg c.reg r (c.reg r) = c.reg := by
    funext s
    by_cases here : s = r
    · simp [setReg, here]
    · simp [setReg, here]
  simp [set, regs]

def push (c : Cpu) (v : Word) : Cpu :=
  (c.setMem (c.mem.store (c.reg .rsp - 8) 8 v)).set .rsp (c.reg .rsp - 8)

/-- The word on top of the stack and the processor without it. -/
def pop (c : Cpu) : Word × Cpu := (c.mem.load (c.reg .rsp) 8, c.set .rsp (c.reg .rsp + 8))

section Stack

variable (c : Cpu) (r : Reg) (v : Word)

@[simp] theorem push_reg : (c.push v).reg r = if r = .rsp then c.reg .rsp - 8 else c.reg r := rfl
@[simp] theorem push_flags : (c.push v).flags = c.flags := rfl
@[simp] theorem push_mem : (c.push v).mem = c.mem.store (c.reg .rsp - 8) 8 v := rfl
@[simp] theorem push_trace : (c.push v).trace = c.trace := rfl
@[simp] theorem pop_fst : c.pop.1 = c.mem.load (c.reg .rsp) 8 := rfl
@[simp] theorem pop_snd : c.pop.2 = c.set .rsp (c.reg .rsp + 8) := rfl

end Stack

/-- The arguments of a system call, in order. -/
def syscallArgs (c : Cpu) : List Word := [.rdi, .rsi, .rdx, .r10, .r8, .r9].map c.reg

def address (c : Cpu) (m : MemRef) : Word :=
  (m.base.elim 0 c.reg) + (m.index.elim 0 fun i => c.reg i.1 <<< i.2) + m.disp

/-- Where the next byte is: the one in front where DF is set. -/
def stride (c : Cpu) : Word := if c.flags.df then -1 else 1

/-- The string instructions for one byte, RCX counting down. -/
def stosb (c : Cpu) : Cpu :=
  ((c.setMem (c.mem.store (c.reg .rdi) 1 (c.reg .rax))).set .rdi (c.reg .rdi + c.stride)).set .rcx (c.reg .rcx - 1)

def movsb (c : Cpu) : Cpu :=
  let moved := c.setMem (c.mem.store (c.reg .rdi) 1 (c.mem.load (c.reg .rsi) 1))
  ((moved.set .rdi (c.reg .rdi + c.stride)).set .rsi (c.reg .rsi + c.stride)).set .rcx (c.reg .rcx - 1)

end Cpu

def Alu.apply (undefined : Flags → Word → Word → Flags) (op : Alu) (f : Flags) (a b : Word) :
    Word × Flags :=
  match op with
  | .add => (a + b, f.add a b false)
  | .adc => (a + b + BitVec.ofNat 64 f.cf.toNat, f.add a b f.cf)
  | .sub => (a - b, f.sub a b false)
  | .sbb => (a - b - BitVec.ofNat 64 f.cf.toNat, f.sub a b f.cf)
  | .cmp => (a, f.sub a b false)
  | .and => (a &&& b, f.logic (undefined f a b) (a &&& b))
  | .or => (a ||| b, f.logic (undefined f a b) (a ||| b))
  | .xor => (a ^^^ b, f.logic (undefined f a b) (a ^^^ b))

def Unary.apply (op : Unary) (f : Flags) (a : Word) : Word × Flags :=
  match op with
  | .not => (~~~a, f)
  | .neg => (0 - a, f.sub 0 a false)
  | .inc => (a + 1, f.inc a)
  | .dec => (a - 1, f.dec a)

/-- A shift or rotation by a count already masked to six bits. -/
def Shift.apply (undefined : Flags → Word → Word → Flags) (op : Shift) (f : Flags) (a : Word)
    (count : Nat) : Word × Flags :=
  let u := undefined f a (BitVec.ofNat 64 count)
  let overflow (one : Bool) : Bool := if count = 1 then one else u.of
  if count = 0 then (a, f)
  else match op with
    | .shl => (a <<< count, f.shl u a count)
    | .shr =>
      let v := a >>> count
      (v, { f.ofResult v with cf := a.getLsbD (count - 1), of := overflow a.msb, af := u.af })
    | .sar =>
      let v := a.sshiftRight count
      (v, { f.ofResult v with cf := a.getLsbD (count - 1), of := overflow false, af := u.af })
    | .rol =>
      let v := a.rotateLeft count
      (v, { f with cf := v.getLsbD 0, of := overflow (v.msb != v.getLsbD 0) })
    | .ror =>
      let v := a.rotateRight count
      (v, { f with cf := v.msb, of := overflow (v.msb != v.getLsbD 62) })
    | .rcl =>
      let v := (BitVec.cons f.cf a).rotateLeft count
      (v.setWidth 64, { f with cf := v.msb, of := overflow ((v.setWidth 64).msb != v.msb) })
    | .rcr =>
      let v := (BitVec.cons f.cf a).rotateRight count
      (v.setWidth 64, { f with cf := v.msb, of := overflow (a.msb != f.cf) })

/-- `none` is the divide error. -/
def Wide.apply (env : Env) (op : Wide) (c : Cpu) (b : Word) : Option Cpu :=
  let a := c.reg .rax
  let undefined := env.undefined c.flags a b
  let pair (lo hi : Word) (f : Flags) : Cpu := ((c.set .rax lo).set .rdx hi).setFlags f
  match op with
  | .mul =>
    let product := a.toNat * b.toNat
    let cut := decide (2 ^ 64 ≤ product)
    some (pair (BitVec.ofNat 64 product) (BitVec.ofNat 64 (product / 2 ^ 64))
      { undefined with cf := cut, of := cut, df := c.flags.df })
  | .div =>
    let n := (c.reg .rdx).toNat * 2 ^ 64 + a.toNat
    if b = 0 ∨ 2 ^ 64 ≤ n / b.toNat then none
    else some (pair (BitVec.ofNat 64 (n / b.toNat)) (BitVec.ofNat 64 (n % b.toNat))
      { undefined with df := c.flags.df })
  | .idiv =>
    let n := (c.reg .rdx).toInt * 2 ^ 64 + a.toNat
    let q := n.tdiv b.toInt
    if b = 0 ∨ q < -2 ^ 63 ∨ 2 ^ 63 ≤ q then none
    else some (pair (BitVec.ofInt 64 q) (BitVec.ofInt 64 (n.tmod b.toInt))
      { undefined with df := c.flags.df })

/-- The low byte of `v` replaced. -/
def setLow8 (v : Word) (b : Byte) : Word := BitVec.ofNat 64 (v.toNat / 256 * 256 + b.toNat)

/-- A straight-line instruction; `none` for a divide error or a system call that does not return.
The control transfers are left to `step`. -/
def Instr.exec (env : Env) (i : Instr) (c : Cpu) : Option Cpu :=
  match i with
  | .movImm dst v => some (c.set dst v)
  | .mov dst src => some (c.set dst (c.reg src))
  | .load n dst src => some (c.set dst (c.mem.load (c.address src) n))
  | .store n dst src => some (c.setMem (c.mem.store (c.address dst) n (c.reg src)))
  | .lea dst src => some (c.set dst (c.address src))
  | .alu op dst src =>
    let (v, f) := op.apply env.undefined c.flags (c.reg dst) (c.reg src)
    some ((c.set dst v).setFlags f)
  | .aluImm op dst imm =>
    let (v, f) := op.apply env.undefined c.flags (c.reg dst) imm
    some ((c.set dst v).setFlags f)
  | .test a b =>
    let v := c.reg a &&& c.reg b
    some (c.setFlags (c.flags.logic (env.undefined c.flags (c.reg a) (c.reg b)) v))
  | .imul dst src =>
    let a := c.reg dst
    let b := c.reg src
    some ((c.set dst (a * b)).setFlags (c.flags.imul (env.undefined c.flags a b) a b))
  | .wide op src => op.apply env c (c.reg src)
  | .unary op dst =>
    let (v, f) := op.apply c.flags (c.reg dst)
    some ((c.set dst v).setFlags f)
  | .cqo => some (c.set .rdx (if (c.reg .rax).msb then BitVec.allOnes 64 else 0))
  | .shiftImm op dst count =>
    let (v, f) := op.apply env.undefined c.flags (c.reg dst) (count % 64)
    some ((c.set dst v).setFlags f)
  | .shiftCl op dst =>
    let (v, f) := op.apply env.undefined c.flags (c.reg dst) ((c.reg .rcx).toNat % 64)
    some ((c.set dst v).setFlags f)
  | .setcc cond dst =>
    some (c.set dst (setLow8 (c.reg dst) (BitVec.ofNat 8 (cond.holds c.flags).toNat)))
  | .movzx8 dst src => some (c.set dst (BitVec.ofNat 64 ((c.reg src).toNat % 256)))
  | .cmov cond dst src => some (if cond.holds c.flags then c.set dst (c.reg src) else c)
  | .xchg a b => some ((c.set a (c.reg b)).set b (c.reg a))
  | .push r => some (c.push (c.reg r))
  | .pop r => some (c.pop.2.set r c.pop.1)
  | .syscall =>
    (env.kernel c).map fun k => { k with trace := .syscall (c.reg .rax) c.syscallArgs :: c.trace }
  | .inAl =>
    let port := BitVec.ofNat 64 ((c.reg .rdx).toNat % 2 ^ 16)
    let v := env.input c.trace port
    some { c.set .rax (setLow8 (c.reg .rax) v) with trace := .input port v :: c.trace }
  | .hlt => some c
  | .outAl =>
    let port := BitVec.ofNat 64 ((c.reg .rdx).toNat % 2 ^ 16)
    some { c with trace := .output port (BitVec.ofNat 8 (c.reg .rax).toNat) :: c.trace }
  | .wrmsr =>
    let low (r : Reg) := (c.reg r).toNat % 2 ^ 32
    some { c with
      trace := .wrmsr (BitVec.ofNat 64 (low .rcx)) (BitVec.ofNat 64 (low .rdx * 2 ^ 32 + low .rax)) :: c.trace }
  | .lidt src => some { c with trace := .lidt (c.mem.load (c.address src) 2) (c.mem.load (c.address src + 2) 8) :: c.trace }
  | .lockCmpxchg dst src =>
    let old := c.mem.load (c.address dst) 8
    let compared := c.setFlags (c.flags.sub (c.reg .rax) old false)
    some (if c.reg .rax = old then compared.setMem (c.mem.store (c.address dst) 8 (c.reg src)) else compared.set .rax old)
  | .repStosb => some (Cpu.stosb^[(c.reg .rcx).toNat] c)
  | .repMovsb => some (Cpu.movsb^[(c.reg .rcx).toNat] c)
  | .leaRip .. | .jmp .. | .jcc .. | .call .. | .callReg _ | .ret | .iretq | .sysret => none

end Aclm.X64
