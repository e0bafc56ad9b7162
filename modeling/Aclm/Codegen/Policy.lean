import Aclm.Codegen.Run
import Aclm.Parser

/-! The network policy: 64 bits that stand for 65536 ports. -/

set_option autoImplicit false

namespace Aclm.Codegen

open X64 (Word Reg Cpu Env Machine)
open X64.Memory (Separate SameOn OnlyIn)
open Encoder

/-! ### The code -/

def allowCalls (port : Int) : List Call :=
  saving [.rax, .rcx] [.leaRegLabel .rax (data "__net_allow"), load64 .rcx .rax 0,
    .movRegImm64 .rdx (2 ^ (port % 64).toNat), orRegReg .rcx .rdx, store64 .rax 0 .rcx]

def checkCalls (dst : Reg) (port : Operand) (nz z : String) : List Call :=
  saving [.rcx, .rdx, .rsi] (port.mov .rcx ++ [andRegImm .rcx 63, .leaRegLabel .rsi (data "__net_allow"),
    load64 .rdx .rsi 0, .movRegImm64 .rsi 1, shlRegCl .rsi, andRegReg .rdx .rsi, testRegReg .rdx .rdx] ++
    either "neq" nz z [xorRegReg dst dst] [.movRegImm64 dst 1])

theorem allow_appends (port : Int) (g : CodeGenerator) : Appends (.kernelNetAllowPort port) g (allowCalls port) := by
  intro g' emission
  simp only [emitOp, kernelNetAllow, reserve_bind_ok, asm_ok] at emission
  rw [emission]
  simp [allowCalls, saving]

theorem check_appends {g : CodeGenerator} {dest : String} {dst : Reg} (named : resolve dest = .ok dst) {busy : List Reg}
    {port : Expr} {o : Operand} (plain : Plain g busy port o) :
    ∃ nz z, Appends (.kernelNetCheckPort dest port) g (checkCalls dst o nz z) := by
  have found := ((plain.reserved "__net_allow" (zeroBytes 8)).withScript
    (g.script ++ [.pushReg .rcx, .pushReg .rdx, .pushReg .rsi])).operand
  refine ⟨freshLabel "nck" (g.labelI + 1), freshLabel "nckz" (g.labelI + 1 + 1), fun g' emission => ?_⟩
  simp only [emitOp, kernelNetCheck, reg_bind_ok, named, Except.ok.injEq, exists_eq_left', reserve_bind_ok, asm_bind_ok,
    reserved_script, @operand_bind_ok _ _ _ _ _ _ found, newLabel_bind_ok, asm_ok,
    CodeGenerator.withScript_withScript, CodeGenerator.withScript_script] at emission
  rw [emission]
  simp [checkCalls, saving, either]

/-! ### Bits of a word -/

theorem one_shl_ofInt (k : Nat) : BitVec.ofInt 64 (2 ^ k) = BitVec.twoPow 64 k := by
  apply BitVec.eq_of_toNat_eq
  rw [BitVec.toNat_twoPow, BitVec.toNat_ofInt]
  norm_cast

/-- A word has a bit in common with a power of two exactly when it has that bit. -/
theorem and_twoPow_eq_zero_iff {w : Word} {k : Nat} (small : k < 64) :
    w &&& BitVec.twoPow 64 k = 0 ↔ w.getLsbD k = false := by
  rw [BitVec.and_twoPow]
  have nonzero : BitVec.twoPow 64 k ≠ 0#64 := by
    intro zero
    have bit := congrArg (fun v : Word => v.getLsbD k) zero
    simp [small] at bit
  cases w.getLsbD k <;> simp [nonzero]

/-! ### Execution -/

variable {L : Listing} {M : Machine}

/-- The word that holds the policy. -/
def policy (L : Listing) (c : Cpu) : Word := c.mem.load (L.address (data "__net_allow")) 8

theorem allow_meets (port : Int) {c : Cpu} (clear : StackClear L c 16 "__net_allow" 8) :
    L.Meets (allowCalls port) c fun d => policy L d = policy L c ||| BitVec.twoPow 64 (port % 64).toNat ∧
      d.reg .rsp = c.reg .rsp := by
  refine .saving (by decide) (by decide) (by decide) fun m saved => ?_
  have kept : policy L m = policy L c := by
    have same := (saved.sameOn clear).load (i := 0) (k := 8) (by omega) (by omega)
    simpa [policy] using same
  have stored (v : Word) : OnlyIn (L.address (data "__net_allow")) 8 m.mem (m.mem.store (L.address (data "__net_allow")) 8 v) := by
    simpa using @OnlyIn.store (L.address (data "__net_allow")) 8 8 m.mem 0 (by omega) (by decide) v
  refine .straight (by simp [load64, store64]; rfl) ⟨?_, ?_, fun d back => ⟨?_, back.sp⟩⟩
  · simp
  · exact saved.keeps clear (by decide) (by simpa using stored _)
  · rw [policy, back.mem]
    simp only [policy] at kept ⊢
    simp [kept, one_shl_ofInt]

theorem check_meets {dst : Reg} (user : User dst) (other : dst ∉ [Reg.rcx, .rdx, .rsi]) {busy : List Reg} {o : Operand}
    (plain : o.Outside busy) (nz z : String) {c : Cpu} (clear : StackClear L c 24 "__net_allow" 8) :
    L.Meets (checkCalls dst o nz z) c fun d =>
      d.reg dst = (if (policy L c).getLsbD ((o.value L.address c).toNat % 64) then 1 else 0) ∧ d.reg .rsp = c.reg .rsp := by
  obtain ⟨notSp, -, -, -⟩ := (user_iff dst).mp user
  refine .saving (by decide) (by decide) (by decide) fun m saved => ?_
  have kept : policy L m = policy L c := by
    have same := (saved.sameOn clear).load (i := 0) (k := 8) (by omega) (by omega)
    simpa [policy] using same
  have same : o.value L.address m = o.value L.address c := by
    refine plain.value_eq fun r user _ => saved.regs r ?_
    exact ((user_iff r).mp user).1
  obtain ⟨v, value⟩ : ∃ v, o.value L.address c = v := ⟨_, rfl⟩
  refine .append (P := fun k => k.flags.zf = !(policy L c).getLsbD (v.toNat % 64) ∧ k.reg .rsp = m.reg .rsp ∧
    k.mem = m.mem) ?_ fun k test => ?_
  · -- The operand goes into RCX, the policy into RDX and a one into RSI, which is shifted by the masked operand.
    refine .append (P := (· = m.set .rcx v)) (.straight (by rw [mov_effects, same, value]) rfl) fun _ entered => ?_
    subst entered
    change L.Meets ([andRegImm .rcx 63, .leaRegLabel .rsi (data "__net_allow"), load64 .rdx .rsi 0,
      .movRegImm64 .rsi 1] ++ [shlRegCl .rsi, andRegReg .rdx .rsi, testRegReg .rdx .rdx]) _ _
    refine .append (P := fun k => k.reg .rcx = v &&& 63 ∧ k.reg .rdx = policy L c ∧ k.reg .rsi = 1 ∧
      k.reg .rsp = m.reg .rsp ∧ k.mem = m.mem) (.straight (by simp [load64]; rfl) ?_) fun k₁ loaded => ?_
    · simp only [policy] at kept ⊢
      simp [kept]
    · obtain ⟨rcx, rdx, rsi, sp, mem⟩ := loaded
      obtain ⟨f, shifted⟩ := effect_shlRegCl L.env L.address k₁ .rsi
      have count : (v.toNat &&& 63) % 64 = v.toNat % 64 := by
        have masked : v.toNat &&& 63 = v.toNat % 64 := Nat.and_two_pow_sub_one_eq_mod v.toNat 6
        omega
      refine .straight (by simp [shifted]; rfl) ⟨?_, ?_, ?_⟩
      · have common := and_twoPow_eq_zero_iff (w := policy L c) (Nat.mod_lt v.toNat (by decide : 0 < 64))
        simp only [BitVec.twoPow_eq] at common
        simp [X64.Flags.logic, X64.Flags.ofResult, rcx, rdx, rsi, count]
        rw [Bool.eq_iff_iff]
        simpa using common
      · simp [sp]
      · simp [mem]
  · obtain ⟨zf, sp, mem⟩ := test
    have kept : SameOn (m.reg .rsp) (8 * 3) m.mem k.mem := mem ▸ .refl _ _ _
    refine .either (by decide : jumpCondition "neq" = some .ne) (fun fails => ?_) fun holds => ?_
    · have absent : (policy L c).getLsbD (v.toNat % 64) = false := by simpa [X64.Cond.holds, zf] using fails
      refine .straight (by simp; rfl) ⟨by simpa [Ne.symm notSp] using sp, by simpa using kept, fun d back => ⟨?_, back.sp⟩⟩
      rw [back.others dst other notSp, value]
      simp [absent]
    · have present : (policy L c).getLsbD (v.toNat % 64) = true := by simpa [X64.Cond.holds, zf] using holds
      refine .straight (by simp; rfl) ⟨by simpa [Ne.symm notSp] using sp, by simpa using kept, fun d back => ⟨?_, back.sp⟩⟩
      rw [back.others dst other notSp, value]
      simp [present]

/-! ### Runs -/

/-- A run from the zeros of the image in which the ports of `ps` have been allowed, the last one first. In between the
program may do anything but write to the policy. -/
inductive PolicyRun (L : Listing) (M : Machine) : Cpu → List Nat → Prop where
  | start {c : Cpu} (zeros : policy L c = 0) : PolicyRun L M c []
  | allow {g : CodeGenerator} {port : Nat} {c d : Cpu} {ps : List Nat} (run : PolicyRun L M c ps) (_small : port < 65536)
      (clear : StackClear L c 16 "__net_allow" 8) (executes : Executes L M g (Parser.netAllowPort port) c d) :
      PolicyRun L M d (port :: ps)
  | other {c d : Cpu} {ps : List Nat} (run : PolicyRun L M c ps)
      (kept : SameOn (L.address (data "__net_allow")) 8 c.mem d.mem) : PolicyRun L M d ps

/-- A bit is set exactly when a port that stands for it has been allowed. -/
theorem PolicyRun.bits (loaded : L.Loaded M) {c : Cpu} {ps : List Nat} (run : PolicyRun L M c ps) {k : Nat} :
    (policy L c).getLsbD k = true ↔ ∃ q ∈ ps, q % 64 = k := by
  induction run with
  | start zeros => simp [zeros]
  | @allow g port c d ps _ _ clear executes ih =>
    obtain ⟨next, -⟩ := executes.post loaded (allow_appends _ _) (allow_meets _ clear)
    have masked : ((port : Int) % 64 % 64).toNat = port % 64 := by omega
    rw [next, BitVec.getLsbD_or, BitVec.getLsbD_twoPow, masked]
    have below : port % 64 < 64 := Nat.mod_lt port (by decide)
    simp only [Bool.or_eq_true, ih, List.exists_mem_cons_iff, Bool.and_eq_true, decide_eq_true_eq, below, true_and]
    exact or_comm
  | other _ kept ih =>
    have same := kept.load (i := 0) (k := 8) (by omega) (by omega)
    simp only [BitVec.add_zero] at same
    rw [policy, same]
    exact ih

/-- A port is judged by the ports that have been allowed exactly when it is one of them or shares its bit with none. -/
theorem net_check_iff (loaded : L.Loaded M) {c : Cpu} {ps : List Nat} (run : PolicyRun L M c ps) {g : CodeGenerator}
    {dest : String} {dst : Reg} (named : resolve dest = .ok dst) (other : dst ∉ [Reg.rcx, .rdx, .rsi]) {port : Expr}
    {o : Operand} (plain : Plain g [] port o) {p : Nat} (small : p < 65536)
    (value : o.value L.address c = BitVec.ofNat 64 p) (clear : StackClear L c 24 "__net_allow" 8) {i : Nat}
    {calls : List Call} (stands : Stands L g (.kernelNetCheckPort dest port) i calls) :
    ∃ d, M.Completes (L.offset i) (L.offset (i + calls.length)) c d ∧
      (d.reg dst = (if p ∈ ps then 1 else 0) ↔ p ∈ ps ∨ ∀ q ∈ ps, q % 64 ≠ p % 64) := by
  obtain ⟨nz, z, appends⟩ := @check_appends g dest dst named _ _ _ plain
  obtain ⟨d, completes, result, -⟩ :=
    stands.executes loaded appends (check_meets (user_of_resolve named) other plain.outside nz z clear)
  have number : (o.value L.address c).toNat % 64 = p % 64 := by
    rw [value, BitVec.toNat_ofNat, Nat.mod_eq_of_lt (small.trans (by decide))]
  have bit := @PolicyRun.bits _ _ loaded _ _ run (p % 64)
  rw [number] at result
  refine ⟨d, completes, ?_⟩
  rw [result]
  by_cases allowed : p ∈ ps
  · have set : (policy L c).getLsbD (p % 64) = true := bit.mpr ⟨p, allowed, rfl⟩
    simp [allowed, set]
  · simp only [allowed, if_false, false_or]
    constructor
    · intro denied q member same
      have set := bit.mpr ⟨q, member, same⟩
      simp [set] at denied
    · intro apart
      have unset : (policy L c).getLsbD (p % 64) ≠ true := fun set =>
        let ⟨q, member, same⟩ := bit.mp set
        apart q member same
      simp [unset]

/-- `kernel:net_allow_port 80` and `kernel:net_check_port reg1 = reg2`, with any word in `reg2` -/
theorem exists_policyRun (p : Word) : ∃ (L : Listing) (M : Machine) (c : Cpu) (i : Nat) (calls : List Call),
    L.Loaded M ∧ PolicyRun L M c [80] ∧ c.reg .rbx = p ∧ StackClear L c 24 "__net_allow" 8 ∧
      Stands L (.new false) (.kernelNetCheckPort "reg1" (.reg "reg2")) i calls := by
  obtain ⟨L, M, loaded, calls, -, -⟩ := Listing.exists_loaded
    (allowCalls 16 ++ checkCalls .rax (.reg .rbx) (freshLabel "nck" 1) (freshLabel "nckz" 2)) [(data "__net_allow", 1000)]
    .silent (by decide)
  have here : L.At 0 (allowCalls 16 ++ checkCalls .rax (.reg .rbx) (freshLabel "nck" 1) (freshLabel "nckz" 2)) :=
    calls ▸ List.prefix_refl _
  obtain ⟨first, second⟩ := here.append _
  have allow : Stands L (.new false) (Parser.netAllowPort 80) 0 (allowCalls 16) := ⟨⟨_, rfl, rfl⟩, first⟩
  let start := Cpu.filled (L.address (data "__net_allow"))
  have clear (n : Nat) (small : n < 2 ^ 32) (c : Cpu) (sp : c.reg .rsp = start.reg .rsp) :
      StackClear L c n "__net_allow" 8 := by
    rw [StackClear, sp]
    change Separate (L.address (data "__net_allow") - BitVec.ofNat 64 n) n (L.address (data "__net_allow")) 8
    constructor <;> bv_omega
  have zeros : policy L start = 0 := by
    have bytes (a : Word) : start.mem.bytes a 8 = List.replicate 8 0 := List.map_const ..
    rw [policy, X64.Memory.load, bytes]
    decide
  obtain ⟨d, allowed, -, sp⟩ := allow.executes loaded (allow_appends _ _) (allow_meets _ (clear 16 (by decide) start rfl))
  have run : PolicyRun L M d [80] := .allow (.start zeros) (by decide) (clear 16 (by decide) start rfl) ⟨_, _, allow, allowed⟩
  exact ⟨L, M, d.set .rbx p, _, _, loaded, .other run (.refl _ _ _), rfl, clear 24 (by decide) _ sp,
    ⟨⟨_, rfl, rfl⟩, second⟩⟩

theorem net_check_allowed : ∃ (L : Listing) (M : Machine) (c d : Cpu) (i j : Nat),
    PolicyRun L M c [80] ∧ M.Completes (L.offset i) (L.offset j) c d ∧ d.reg .rax = 1 := by
  obtain ⟨L, M, c, i, calls, loaded, run, value, clear, stands⟩ := exists_policyRun 80
  have named : resolve "reg1" = .ok .rax := by decide
  have plain : Plain (.new false) [] (.reg "reg2") (.reg .rbx) := .reg (by decide) (by decide)
  obtain ⟨d, completes, right⟩ := net_check_iff loaded run named (by decide) plain (p := 80) (by decide) value clear stands
  exact ⟨L, M, c, d, i, _, run, completes, by simpa using right.mpr (.inl (by decide))⟩

/-- Port 144 has the bit of port 80. -/
theorem net_check_shared : ¬∀ (L : Listing) (M : Machine) (c d : Cpu) (ps : List Nat) (g : CodeGenerator) (dest : String)
    (dst : Reg) (port : Expr) (o : Operand) (p : Nat), L.Loaded M → PolicyRun L M c ps → resolve dest = .ok dst →
      dst ∉ [Reg.rcx, .rdx, .rsi] → Plain g [] port o → p < 65536 → o.value L.address c = BitVec.ofNat 64 p →
      StackClear L c 24 "__net_allow" 8 → Executes L M g (.kernelNetCheckPort dest port) c d →
      d.reg dst = if p ∈ ps then 1 else 0 := by
  intro right
  obtain ⟨L, M, c, i, calls, loaded, run, value, clear, stands⟩ := exists_policyRun 144
  have named : resolve "reg1" = .ok .rax := by decide
  have plain : Plain (.new false) [] (.reg "reg2") (.reg .rbx) := .reg (by decide) (by decide)
  obtain ⟨nz, z, appends⟩ := @check_appends (.new false) "reg1" .rax named _ _ _ plain
  obtain ⟨d, completes, result, -⟩ :=
    stands.executes loaded appends (check_meets (by decide) (by decide) plain.outside nz z clear)
  have denied := right L M c d [80] (.new false) "reg1" .rax _ _ 144 loaded run named (by decide) plain (by decide) value
    clear ⟨_, _, stands, completes⟩
  have bit : (policy L c).getLsbD 16 = true := (run.bits loaded).mpr ⟨80, by decide, by decide⟩
  have number : ((Operand.reg .rbx).value L.address c).toNat % 64 = 16 := by
    change (c.reg .rbx).toNat % 64 = 16
    rw [value]
    decide
  rw [number, bit] at result
  rw [result] at denied
  exact absurd denied (by decide)

end Aclm.Codegen
