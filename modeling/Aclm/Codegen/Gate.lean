import Aclm.Codegen.Spin

/-! `gate:cas` and `gate:spin` one at a time: what they do to the cell and to the registers that a program can name. -/

set_option autoImplicit false

namespace Aclm.Codegen

open X64 (Word Reg Cpu Cond Env Machine Memory)
open X64.Memory (OnlyIn)
open Encoder

/-! ### The compare-and-swap -/

/-- The code that brings RAX, R11 and the new value into their places. -/
def casFront (addr exp des : Reg) : List Call :=
  [.movRegReg .r11 addr] ++ (if addr ≠ .rax ∧ exp ≠ .rax then [.movRegReg .r13 .rax] else []) ++
    (if des ∈ [Reg.rax, .r11, .r13] then [.movRegReg .r12 des] else []) ++
    (if exp ≠ .rax then [.movRegReg .rax exp] else [])

/-- The code that brings back the old value and RAX. -/
def casBack (addr exp : Reg) : List Call :=
  (if exp ≠ .rax then [.movRegReg exp .rax] else []) ++
    (if addr = .rax then [.movRegReg .rax .r11] else if addr ≠ .rax ∧ exp ≠ .rax then [.movRegReg .rax .r13] else [])

def casCalls (addr exp des : Reg) : List Call :=
  casFront addr exp des ++ [lockCmpxchgMem .r11 0 (if des ∈ [Reg.rax, .r11, .r13] then .r12 else des)] ++ casBack addr exp

theorem cas_appends (g : CodeGenerator) {addrName expName desName : String} {addr exp des : Reg}
    (hAddr : resolve addrName = .ok addr) (hExp : resolve expName = .ok exp) (hDes : resolve desName = .ok des) :
    Appends (.gateCas addrName expName desName) g (casCalls addr exp des) := by
  intro g' emission
  simp only [emitOp, gateCas, reg_bind_ok, hAddr, hExp, hDes, Except.ok.injEq, exists_eq_left', asm_bind_ok, asm_ok,
    decide_eq_true_eq] at emission
  rw [emission]
  simp [casCalls, casFront, casBack]

section Conditions

variable (addr exp des : Reg) (c : Cpu)

/-- What R13 is left with: RAX is kept there unless it is the address or the expected register. -/
def keptR13 : Word := if addr ≠ .rax ∧ exp ≠ .rax then c.reg .rax else c.reg .r13

/-- The value that is stored. -/
def newValue : Word := if des = .r13 then keptR13 addr exp c else c.reg des

/-- What R12 is left with: the new value goes through it where its own register is taken. -/
def keptR12 : Word := if des ∈ [Reg.rax, .r11, .r13] then newValue addr exp des c else c.reg .r12

/-- The value that the cell is compared with. -/
def comparand : Word :=
  if exp = .r13 then keptR13 addr exp c else if exp = .r12 then keptR12 addr exp des c else c.reg exp

/-- The cell has the desired register's value if it had the expected one's, the expected register has what the cell had
(unless it is the address), and no other register that a program can name has changed. -/
structure Swapped (d : Cpu) : Prop where
  cell : d.mem.load (c.reg addr) 8 =
    if c.mem.load (c.reg addr) 8 = c.reg exp then c.reg des else c.mem.load (c.reg addr) 8
  elsewhere : OnlyIn (c.reg addr) 8 c.mem d.mem
  old : exp ≠ addr → d.reg exp = c.mem.load (c.reg addr) 8
  regs : ∀ r, User r → r ≠ exp → d.reg r = c.reg r

/-- The registers that the code borrows are not in its way. -/
structure CasIntact : Prop where
  cell : (if comparand addr exp des c = c.mem.load (c.reg addr) 8 then newValue addr exp des c
      else c.mem.load (c.reg addr) 8) =
    if c.mem.load (c.reg addr) 8 = c.reg exp then c.reg des else c.mem.load (c.reg addr) 8
  rax : addr ≠ .rax → exp = .r13 → c.mem.load (c.reg addr) 8 = c.reg .rax
  r12 : exp ≠ .r12 → keptR12 addr exp des c = c.reg .r12
  r13 : exp ≠ .r13 → keptR13 addr exp c = c.reg .r13

/-- What the code leaves. -/
structure CasDone (d : Cpu) : Prop where
  mem : d.mem = if comparand addr exp des c = c.mem.load (c.reg addr) 8 then c.mem.store (c.reg addr) 8
    (newValue addr exp des c) else c.mem
  rax : d.reg .rax = if addr = .rax then c.reg .rax
    else if exp = .rax ∨ exp = .r13 then c.mem.load (c.reg addr) 8 else c.reg .rax
  old : exp ≠ .rax → d.reg exp = c.mem.load (c.reg addr) 8
  r12 : exp ≠ .r12 → d.reg .r12 = keptR12 addr exp des c
  r13 : exp ≠ .r13 → d.reg .r13 = keptR13 addr exp c
  regs : ∀ r, r ∉ [Reg.rax, .r11, .r12, .r13, exp] → d.reg r = c.reg r

end Conditions

section Execution

variable {env : Env} {place : String → Word}

theorem move_if (p : Prop) [Decidable p] (dst src : Reg) (c : Cpu) :
    effects env place (if p then [.movRegReg dst src] else []) c = some (if p then c.set dst (c.reg src) else c) := by
  by_cases h : p
  · simp only [if_pos h, effects_cons, effect_movRegReg, Option.bind_some, effects_nil]
  · simp only [if_neg h, effects_nil]

theorem casFront_effects (addr : Reg) {exp des : Reg} (userExp : User exp) (userDes : User des) (c : Cpu) :
    ∃ m, effects env place (casFront addr exp des) c = some m ∧ m.mem = c.mem ∧ m.reg .r11 = c.reg addr ∧
      m.reg .rax = comparand addr exp des c ∧
      m.reg (if des ∈ [Reg.rax, .r11, .r13] then .r12 else des) = newValue addr exp des c ∧
      m.reg .r12 = keptR12 addr exp des c ∧ m.reg .r13 = keptR13 addr exp c ∧
      ∀ r, r ∉ [Reg.rax, .r11, .r12, .r13] → m.reg r = c.reg r := by
  have expR11 : exp ≠ .r11 := ((user_iff exp).mp userExp).2.2.1
  have desR11 : des ≠ .r11 := ((user_iff des).mp userDes).2.2.1
  -- The states after each of the moves that may be left out.
  obtain ⟨m₂, second⟩ : ∃ m₂, (if addr ≠ .rax ∧ exp ≠ .rax then (c.set .r11 (c.reg addr)).set .r13
      ((c.set .r11 (c.reg addr)).reg .rax) else c.set .r11 (c.reg addr)) = m₂ := ⟨_, rfl⟩
  obtain ⟨m₃, third⟩ : ∃ m₃, (if des ∈ [Reg.rax, .r11, .r13] then m₂.set .r12 (m₂.reg des) else m₂) = m₃ := ⟨_, rfl⟩
  obtain ⟨m, last⟩ : ∃ m, (if exp ≠ .rax then m₃.set .rax (m₃.reg exp) else m₃) = m := ⟨_, rfl⟩
  have regs₂ (r : Reg) (notR11 : r ≠ .r11) : m₂.reg r = if r = .r13 then keptR13 addr exp c else c.reg r := by
    rw [← second, keptR13]
    split <;> by_cases isR13 : r = .r13 <;> simp [isR13, notR11]
  have value : m₂.reg des = newValue addr exp des c := regs₂ des desR11
  have regs₃ (r : Reg) (notR11 : r ≠ .r11) :
      m₃.reg r = if r = .r12 then keptR12 addr exp des c else if r = .r13 then keptR13 addr exp c else c.reg r := by
    rw [← third, keptR12]
    by_cases isR12 : r = .r12
    · subst isR12
      split <;> simp [value, regs₂]
    · split <;> simp [isR12, regs₂ r notR11]
  have compared : m.reg .rax = comparand addr exp des c := by
    rw [← last, comparand]
    by_cases isRax : exp = .rax
    · simp [isRax, regs₃]
    · rw [if_pos isRax, X64.Cpu.set_reg, if_pos rfl, regs₃ exp expR11]
      by_cases isR12 : exp = .r12 <;> simp [isR12]
  have regs (r : Reg) (notRax : r ≠ .rax) : m.reg r = m₃.reg r := by
    rw [← last]
    split <;> simp [notRax]
  refine ⟨m, ?_, ?_, ?_, compared, ?_, ?_, ?_, fun r other => ?_⟩
  · simp only [casFront, effects_append, effects_cons, effect_movRegReg, effects_nil, Option.bind_some, move_if, second,
      third, last]
  · rw [← last, ← third, ← second]
    repeat' split
    all_goals rfl
  · rw [regs .r11 (by decide), ← third, ← second]
    repeat' split
    all_goals simp
  -- R12 stands in for the new value where its register is written before the exchange.
  · by_cases borrowed : des ∈ [Reg.rax, .r11, .r13]
    · rw [if_pos borrowed, regs .r12 (by decide), regs₃ .r12 (by decide), if_pos rfl, keptR12, if_pos borrowed]
    · obtain ⟨notRax, -, notR13⟩ : des ≠ .rax ∧ des ≠ .r11 ∧ des ≠ .r13 := by simpa using borrowed
      rw [if_neg borrowed, regs des notRax, regs₃ des desR11, if_neg notR13, newValue, if_neg notR13, keptR12,
        if_neg borrowed]
      split
      · next isR12 => rw [isR12]
      · rfl
  · rw [regs .r12 (by decide), regs₃ .r12 (by decide), if_pos rfl]
  · rw [regs .r13 (by decide), regs₃ .r13 (by decide), if_neg (by decide), if_pos rfl]
  · obtain ⟨notRax, notR11, notR12, notR13⟩ : r ≠ .rax ∧ r ≠ .r11 ∧ r ≠ .r12 ∧ r ≠ .r13 := by simpa using other
    rw [regs r notRax, regs₃ r notR11, if_neg notR12, if_neg notR13]

/-- The exchange leaves the old value in RAX whether or not it stored. -/
theorem exchange_effects (src : Reg) (c : Cpu) : ∃ d, effects env place [lockCmpxchgMem .r11 0 src] c = some d ∧
    d.mem = (if c.reg .rax = c.mem.load (c.reg .r11) 8 then c.mem.store (c.reg .r11) 8 (c.reg src) else c.mem) ∧
    d.reg .rax = c.mem.load (c.reg .r11) 8 ∧ (∀ r, r ≠ .rax → d.reg r = c.reg r) ∧
    d.flags.zf = decide (c.reg .rax = c.mem.load (c.reg .r11) 8) := by
  have there : c.address ⟨some .r11, none, 0⟩ = c.reg .r11 := by simp [X64.Cpu.address]
  let k := c.setFlags (c.flags.sub (c.reg .rax) (c.mem.load (c.reg .r11) 8) false)
  by_cases same : c.reg .rax = c.mem.load (c.reg .r11) 8
  · refine ⟨k.setMem (c.mem.store (c.reg .r11) 8 (c.reg src)), ?_, ?_, same, fun r _ => rfl, by simp [k, X64.sub_zf]⟩
    · rw [effects_cons, effect_lockCmpxchg, X64.Instr.exec, there, if_pos same, Option.bind_some, effects_nil]
    · simp [same]
  · refine ⟨k.set .rax (c.mem.load (c.reg .r11) 8), ?_, ?_, by simp, fun r other => by simp [k, other],
      by simp [k, X64.sub_zf]⟩
    · rw [effects_cons, effect_lockCmpxchg, X64.Instr.exec, there, if_neg same, Option.bind_some, effects_nil]
    · simp [k, same]

theorem casBack_effects {addr exp : Reg} (userExp : User exp) (c : Cpu) :
    ∃ d, effects env place (casBack addr exp) c = some d ∧ d.mem = c.mem ∧
      (d.reg .rax = if addr = .rax then c.reg .r11 else if exp = .rax ∨ exp = .r13 then c.reg .rax else c.reg .r13) ∧
      (exp ≠ .rax → d.reg exp = c.reg .rax) ∧ ∀ r, r ≠ .rax → r ≠ exp → d.reg r = c.reg r := by
  have expR11 : exp ≠ .r11 := ((user_iff exp).mp userExp).2.2.1
  obtain ⟨m, first⟩ : ∃ m, (if exp ≠ .rax then c.set exp (c.reg .rax) else c) = m := ⟨_, rfl⟩
  have mem : m.mem = c.mem := by
    rw [← first]
    split <;> rfl
  have other (r : Reg) (apart : r ≠ exp) : m.reg r = c.reg r := by
    rw [← first]
    split <;> simp [apart]
  have back (there : exp ≠ .rax) : m.reg exp = c.reg .rax := by simp [← first, there]
  by_cases isAddr : addr = .rax
  · refine ⟨m.set .rax (m.reg .r11), ?_, mem, ?_, fun there => ?_, fun r notRax apart => ?_⟩
    · simp only [casBack, effects_append, move_if, first, Option.bind_some, if_pos isAddr, effects_cons, effect_movRegReg,
        effects_nil]
    · simp [isAddr, other .r11 (Ne.symm expR11)]
    · simp [there, back there]
    · simp [notRax, other r apart]
  · by_cases isExp : exp = .rax
    · refine ⟨m, ?_, mem, ?_, fun there => absurd isExp there, fun r _ apart => other r apart⟩
      · rw [casBack, effects_append, move_if, first, Option.bind_some, if_neg isAddr,
          if_neg (fun both => both.2 isExp), effects_nil]
      · simp [isAddr, isExp, ← first]
    · refine ⟨m.set .rax (m.reg .r13), ?_, mem, ?_, fun there => ?_, fun r notRax apart => ?_⟩
      · rw [casBack, effects_append, move_if, first, Option.bind_some, if_neg isAddr, if_pos ⟨isAddr, isExp⟩, effects_cons,
          effect_movRegReg, Option.bind_some, effects_nil]
      · by_cases isR13 : exp = .r13
        · simp [isAddr, isR13, ← first]
        · simp [isAddr, isExp, isR13, other .r13 (Ne.symm isR13)]
      · simp [there, back there]
      · simp [notRax, other r apart]

/-- The code of the compare-and-swap. -/
theorem cas_effects (addr : Reg) {exp des : Reg} (userExp : User exp) (userDes : User des) (c : Cpu) :
    ∃ d, effects env place (casCalls addr exp des) c = some d ∧ CasDone addr exp des c d := by
  obtain ⟨m, front, mem₁, r11₁, rax₁, value₁, r12₁, r13₁, regs₁⟩ := @casFront_effects env place addr _ _ userExp userDes c
  obtain ⟨k, middle, mem₂, rax₂, regs₂, -⟩ := @exchange_effects env place
    (if des ∈ [Reg.rax, .r11, .r13] then .r12 else des) m
  obtain ⟨d, back, mem₃, rax₃, exp₃, regs₃⟩ := @casBack_effects env place addr exp userExp k
  rw [mem₁, r11₁, rax₁, value₁] at mem₂
  rw [mem₁, r11₁] at rax₂
  refine ⟨d, ?_, ⟨mem₃.trans mem₂, ?_, fun there => (exp₃ there).trans rax₂, fun there => ?_, fun there => ?_,
    fun r other => ?_⟩⟩
  · rw [casCalls, effects_append, effects_append, front, Option.bind_some, middle, Option.bind_some, back]
  · rw [rax₃, rax₂, regs₂ .r11 (by decide), regs₂ .r13 (by decide), r11₁, r13₁]
    by_cases isAddr : addr = .rax
    · simp [isAddr]
    · by_cases isExp : exp = .rax <;> simp [isAddr, isExp, keptR13]
  · rw [regs₃ .r12 (by decide) (Ne.symm there), regs₂ .r12 (by decide), r12₁]
  · rw [regs₃ .r13 (by decide) (Ne.symm there), regs₂ .r13 (by decide), r13₁]
  · obtain ⟨notRax, notR11, notR12, notR13, notExp⟩ :
        r ≠ .rax ∧ r ≠ .r11 ∧ r ≠ .r12 ∧ r ≠ .r13 ∧ r ≠ exp := by simpa using other
    rw [regs₃ r notRax notExp, regs₂ r notRax, regs₁ r (by simp [notRax, notR11, notR12, notR13])]

end Execution

theorem CasDone.swapped_iff {addr exp des : Reg} {c d : Cpu} (done : CasDone addr exp des c d) :
    Swapped addr exp des c d ↔ CasIntact addr exp des c := by
  have cell : d.mem.load (c.reg addr) 8 = if comparand addr exp des c = c.mem.load (c.reg addr) 8
      then newValue addr exp des c else c.mem.load (c.reg addr) 8 := by
    rw [done.mem]
    split
    · exact X64.Memory.load_store_word ..
    · rfl
  constructor
  · intro swapped
    refine ⟨cell.symm.trans swapped.cell, fun notRax isR13 => ?_, fun notR12 => ?_, fun notR13 => ?_⟩
    · have kept := swapped.regs .rax (by decide) (by simp [isR13])
      rwa [done.rax, if_neg notRax, if_pos (.inr isR13)] at kept
    · rw [← done.r12 notR12]
      exact swapped.regs .r12 (by decide) (Ne.symm notR12)
    · rw [← done.r13 notR13]
      exact swapped.regs .r13 (by decide) (Ne.symm notR13)
  · intro intact
    refine ⟨cell.trans intact.cell, ?_, fun apart => ?_, fun r user notExp => ?_⟩
    · rw [done.mem]
      split
      · simpa using OnlyIn.store c.mem (a := c.reg addr) (k := 8) (n := 8) (i := 0) (by decide) (by decide)
          (newValue addr exp des c)
      · exact .refl _ _ _
    · by_cases isRax : exp = .rax
      · rw [isRax, done.rax, if_neg (fun same => apart (isRax.trans same.symm)), if_pos (.inl isRax)]
      · exact done.old isRax
    -- RAX, R12 and R13 are the registers that the code borrows.
    · by_cases isRax : r = .rax
      · subst isRax
        rw [done.rax]
        by_cases isAddr : addr = .rax
        · rw [if_pos isAddr]
        · rw [if_neg isAddr]
          split
          · next taken => exact intact.rax isAddr (taken.resolve_left (Ne.symm notExp))
          · rfl
      · by_cases isR12 : r = .r12
        · subst isR12
          rw [done.r12 (Ne.symm notExp), intact.r12 (Ne.symm notExp)]
        · by_cases isR13 : r = .r13
          · subst isR13
            rw [done.r13 (Ne.symm notExp), intact.r13 (Ne.symm notExp)]
          · exact done.regs r (by simp [isRax, ((user_iff r).mp user).2.2.1, isR12, isR13, notExp])

/-! ### The spin -/

/-- No register that a program can name has changed. -/
def KeepsUser (c d : Cpu) : Prop := ∀ r, User r → d.reg r = c.reg r

/-- What the code of `gate:spin` leaves. -/
structure SpinDone (addr : Reg) (c d : Cpu) : Prop where
  rax : d.reg .rax = c.reg .rax
  r12 : d.reg .r12 = 1
  r13 : d.reg .r13 = if addr ≠ .rax then c.reg .rax else c.reg .r13
  regs : ∀ r, r ∉ [Reg.rax, .r11, .r12, .r13] → d.reg r = c.reg r

/-- R12 is 1 already, and R13 is RAX where RAX is kept there. -/
def SpinIntact (addr : Reg) (c : Cpu) : Prop := c.reg .r12 = 1 ∧ (addr ≠ .rax → c.reg .r13 = c.reg .rax)

theorem SpinDone.keeps_iff {addr : Reg} {c d : Cpu} (done : SpinDone addr c d) :
    KeepsUser c d ↔ SpinIntact addr c := by
  constructor
  · intro keeps
    refine ⟨(keeps .r12 (by decide)).symm.trans done.r12, fun notRax => ?_⟩
    rw [← keeps .r13 (by decide), done.r13, if_pos notRax]
  · rintro ⟨one, kept⟩ r user
    by_cases isRax : r = .rax
    · rw [isRax, done.rax]
    · by_cases isR12 : r = .r12
      · rw [isR12, done.r12, one]
      · by_cases isR13 : r = .r13
        · rw [isR13, done.r13]
          split
          · next notRax => exact (kept notRax).symm
          · rfl
        · exact done.regs r (by simp [isRax, ((user_iff r).mp user).2.2.1, isR12, isR13])

/-- In the loop: the address is in R11, and RAX is kept. -/
structure Spinning (addr : Reg) (c d : Cpu) : Prop where
  r11 : d.reg .r11 = c.reg addr
  r13 : d.reg .r13 = if addr ≠ .rax then c.reg .rax else c.reg .r13
  regs : ∀ r, r ∉ [Reg.rax, .r11, .r12, .r13] → d.reg r = c.reg r

theorem Spinning.congr {addr : Reg} {c d e : Cpu} (spinning : Spinning addr c d)
    (same : ∀ r, r ≠ .rax → r ≠ .r12 → e.reg r = d.reg r) : Spinning addr c e := by
  refine ⟨(same .r11 (by decide) (by decide)).trans spinning.r11, (same .r13 (by decide) (by decide)).trans spinning.r13,
    fun r other => ?_⟩
  obtain ⟨notRax, -, notR12, -⟩ : r ≠ .rax ∧ r ≠ .r11 ∧ r ≠ .r12 ∧ r ≠ .r13 := by simpa using other
  exact (same r notRax notR12).trans (spinning.regs r other)

theorem saveRax_effects {env : Env} {place : String → Word} {addr : Reg} {c m : Cpu} (r11 : m.reg .r11 = c.reg addr)
    (same : ∀ r, r ≠ .r11 → m.reg r = c.reg r) :
    ∃ d, effects env place (Spin.saveRax addr) m = some d ∧ d.mem = m.mem ∧ Spinning addr c d := by
  refine ⟨_, move_if .., ?_, ?_, ?_, fun r other => ?_⟩
  · split <;> rfl
  · split <;> simpa using r11
  · split <;> simp [same]
  · obtain ⟨-, notR11, -, notR13⟩ : r ≠ .rax ∧ r ≠ .r11 ∧ r ≠ .r12 ∧ r ≠ .r13 := by simpa using other
    split <;> simp [notR13, same r notR11]

theorem restoreRax_effects {env : Env} {place : String → Word} {addr : Reg} {c m : Cpu} (spinning : Spinning addr c m)
    (r12 : m.reg .r12 = 1) : ∃ d, effects env place (Spin.restoreRax addr) m = some d ∧ SpinDone addr c d := by
  obtain ⟨r11, r13, regs⟩ := spinning
  have others (v : Word) {r : Reg} (other : r ∉ [Reg.rax, .r11, .r12, .r13]) : (m.set .rax v).reg r = c.reg r := by
    obtain ⟨notRax, -⟩ : r ≠ .rax ∧ r ≠ .r11 ∧ r ≠ .r12 ∧ r ≠ .r13 := by simpa using other
    simp [notRax, regs r other]
  by_cases isRax : addr = .rax
  · refine ⟨m.set .rax (m.reg .r11), by simp [Spin.restoreRax, isRax], ?_, by simpa using r12, by simpa using r13,
      fun r => others _⟩
    simp [r11, isRax]
  · refine ⟨m.set .rax (m.reg .r13), by simp [Spin.restoreRax, isRax], ?_, by simpa using r12, by simpa using r13,
      fun r => others _⟩
    simp [r13, isRax]

theorem spinCalls_eq (addr : Reg) (loop : String) : Spin.spinCalls addr loop =
    [.movRegReg .r11 addr] ++ Spin.saveRax addr ++
      repeated "neq" loop [xorRegReg .rax .rax, .movRegImm64 .r12 1, lockCmpxchgMem .r11 0 .r12] ++
        Spin.restoreRax addr := by
  simp [Spin.spinCalls, Spin.spinLoop, Spin.exchange, repeated]

/-- Before the only round of the loop the cell is free; behind it R12 still holds the one. -/
def SpinRound (addr : Reg) (c : Cpu) : Nat → Cpu → Prop
  | 0, d => Spinning addr c d ∧ d.reg .r12 = 1
  | n + 1, d => n = 0 ∧ Spinning addr c d ∧ d.mem.load (d.reg .r11) 8 = 0

/-- A free cell is taken at once. -/
theorem spin_meets {L : Listing} (addr : Reg) (loop : String) {c : Cpu} (free : c.mem.load (c.reg addr) 8 = 0) :
    L.Meets (Spin.spinCalls addr loop) c (SpinDone addr c) := by
  rw [spinCalls_eq]
  obtain ⟨m, saved, mem, spinning⟩ := @saveRax_effects L.env L.address addr c (c.set .r11 (c.reg addr)) (by simp)
    fun r other => by simp [other]
  have front : effects L.env L.address ([.movRegReg .r11 addr] ++ Spin.saveRax addr) c = some m := by
    rw [effects_append, effects_cons, effect_movRegReg, Option.bind_some, effects_nil, Option.bind_some, saved]
  have start : m.mem.load (m.reg .r11) 8 = 0 := by
    rw [mem, spinning.r11]
    exact free
  -- One round: the cell is zero, so the exchange sets ZF.
  have round (n : Nat) (k : Cpu) (here : SpinRound addr c (n + 1) k) :
      L.Meets ([xorRegReg .rax .rax, .movRegImm64 .r12 1] ++ [lockCmpxchgMem .r11 0 .r12]) k fun d =>
        SpinRound addr c n d ∧ Cond.ne.holds d.flags = decide (n ≠ 0) := by
    obtain ⟨rfl, spun, zero⟩ := here
    let j := ((k.set .rax 0).setFlags (k.flags.logic (L.env.undefined k.flags (k.reg .rax) (k.reg .rax)) 0)).set .r12 1
    have ready : effects L.env L.address [xorRegReg .rax .rax, .movRegImm64 .r12 1] k = some j := by simp [j]
    have others (r : Reg) (notRax : r ≠ .rax) (notR12 : r ≠ .r12) : j.reg r = k.reg r := by simp [j, notRax, notR12]
    obtain ⟨d, ran, -, -, regs, zf⟩ := @exchange_effects L.env L.address .r12 j
    refine .straight (d := d) ?_ ⟨⟨spun.congr fun r notRax notR12 => ?_, ?_⟩, ?_⟩
    · rw [effects_append, ready, Option.bind_some, ran]
    · rw [regs r notRax, others r notRax notR12]
    · rw [regs .r12 (by decide)]
      simp [j]
    · have same : j.reg .rax = j.mem.load (j.reg .r11) 8 := by
        rw [others .r11 (by decide) (by decide)]
        simpa [j] using zero.symm
      simp [Cond.holds, zf, same]
  have looped : L.Meets (repeated "neq" loop [xorRegReg .rax .rax, .movRegImm64 .r12 1, lockCmpxchgMem .r11 0 .r12]) m
      (SpinRound addr c 0) :=
    .repeated (show jumpCondition "neq" = some .ne by decide) round (n := 0) ⟨rfl, spinning, start⟩
  refine .append (.append (.straight front rfl) fun k same => same ▸ looped) fun d here => ?_
  obtain ⟨spun, r12⟩ := here
  obtain ⟨e, ran, done⟩ := restoreRax_effects spun r12
  exact .straight ran done

/-! ### Among other threads -/

/-- A step inside `gate:spin`, in whatever memory the other threads have made. -/
def SpinTurn (L : Listing) (a : Word) (addr : Reg) (loop : String) (s t : List Call × Cpu) : Prop :=
  ∃ m m', Spin.ThreadStep L a m (.spinning addr loop s.1 s.2) m' (.spinning addr loop t.1 t.2)

/-- The registers by the calls that are still to come, since `gate:spin` was entered in `c`. -/
inductive SpinRegs (addr : Reg) (loop : String) (c : Cpu) : List Call → Cpu → Prop where
  | enter {d : Cpu} (same : d.reg = c.reg) : SpinRegs addr loop c (Spin.spinCalls addr loop) d
  | pointed {d : Cpu} (notRax : addr ≠ .rax) (r11 : d.reg .r11 = c.reg addr) (same : ∀ r, r ≠ .r11 → d.reg r = c.reg r) :
      SpinRegs addr loop c (.movRegReg .r13 .rax :: (Spin.spinLoop loop ++ Spin.restoreRax addr)) d
  | looping {d : Cpu} (n : Fin 3) (spun : Spinning addr c d) :
      SpinRegs addr loop c ((Spin.spinLoop loop).drop n ++ Spin.restoreRax addr) d
  | trying {d : Cpu} (n : Fin 3) (spun : Spinning addr c d) (r12 : d.reg .r12 = 1) :
      SpinRegs addr loop c ((Spin.spinLoop loop).drop (3 + n) ++ Spin.restoreRax addr) d
  | left {d : Cpu} (done : SpinDone addr c d) : SpinRegs addr loop c [] d

section Steps

variable {L : Listing} {addr : Reg} {loop : String} {c d e : Cpu} {calls rest : List Call} {first : Call} {m : Memory}

theorem SpinRegs.call (here : SpinRegs addr loop c calls d) (shape : calls = first :: rest)
    (ran : first.effect L.env L.address (d.setMem m) = some e) : SpinRegs addr loop c rest e := by
  cases here with
  | enter same =>
    obtain ⟨rfl, rfl⟩ := List.cons.inj shape
    rw [effect_movRegReg] at ran
    cases ran
    -- RAX is saved only where it is not the address, which R11 keeps.
    by_cases isRax : addr = .rax
    · have saved : Spin.saveRax addr = [] := by simp [Spin.saveRax, isRax]
      rw [saved]
      refine .looping 0 ⟨by simp [same], by simp [same, isRax], fun r other => ?_⟩
      obtain ⟨-, notR11, -⟩ : r ≠ .rax ∧ r ≠ .r11 ∧ r ≠ .r12 ∧ r ≠ .r13 := by simpa using other
      simp [same, notR11]
    · have saved : Spin.saveRax addr = [.movRegReg .r13 .rax] := by simp [Spin.saveRax, isRax]
      rw [saved]
      exact .pointed isRax (by simp [same]) fun r other => by simp [same, other]
  | pointed notRax r11 same =>
    obtain ⟨rfl, rfl⟩ := List.cons.inj shape
    rw [effect_movRegReg] at ran
    cases ran
    refine .looping 0 ⟨by simpa using r11, by simp [same, notRax], fun r other => ?_⟩
    obtain ⟨-, notR11, -, notR13⟩ : r ≠ .rax ∧ r ≠ .r11 ∧ r ≠ .r12 ∧ r ≠ .r13 := by simpa using other
    simp [notR13, same r notR11]
  | looping n spun =>
    -- The label, the clearing and the one in R12 come before the exchange.
    obtain ⟨_ | _ | _ | n, bound⟩ := n
    · obtain ⟨rfl, rfl⟩ := List.cons.inj shape
      cases ran
      exact .looping 1 (spun.congr fun _ _ _ => rfl)
    · obtain ⟨rfl, rfl⟩ := List.cons.inj shape
      rw [effect_clear] at ran
      cases ran
      exact .looping 2 (spun.congr fun r notRax _ => by simp [notRax])
    · obtain ⟨rfl, rfl⟩ := List.cons.inj shape
      cases ran
      exact .trying 0 (spun.congr fun r _ notR12 => by simp [notR12]) rfl
    · omega
  | trying n spun r12 =>
    obtain ⟨_ | _ | _ | n, bound⟩ := n
    · obtain ⟨rfl, rfl⟩ := List.cons.inj shape
      obtain ⟨k, tried, -, -, regs, -⟩ := @exchange_effects L.env L.address .r12 (d.setMem m)
      obtain ⟨j, once, next⟩ := Option.bind_eq_some_iff.mp tried
      cases ran.symm.trans once
      cases next
      exact .trying 1 (spun.congr fun r notRax _ => regs r notRax) ((regs .r12 (by decide)).trans r12)
    · obtain ⟨rfl, rfl⟩ := List.cons.inj shape
      cases ran
    · obtain ⟨k, restored, done⟩ := @restoreRax_effects L.env L.address addr c (d.setMem m) (spun.congr fun _ _ _ => rfl) r12
      have last : Spin.restoreRax addr = first :: rest := shape
      have single : rest = [] := by
        unfold Spin.restoreRax at last
        split at last <;> exact (List.cons.inj last).2.symm
      subst single
      rw [last, effects_cons, ran] at restored
      cases restored
      exact .left done
    · omega
  | left done => cases shape

theorem SpinRegs.jump {cond target : String} (here : SpinRegs addr loop c calls d)
    (shape : calls = .jcc cond target :: rest) :
    SpinRegs addr loop c ((Spin.spinCalls addr loop).dropWhile (· ≠ .label target)) d ∧ SpinRegs addr loop c rest d := by
  cases here with
  | trying n spun r12 =>
    obtain ⟨_ | _ | _ | n, bound⟩ := n
    · cases shape
    · obtain ⟨same, rfl⟩ := List.cons.inj shape
      obtain ⟨-, rfl⟩ := Call.jcc.inj same
      have back : (Spin.spinCalls addr loop).dropWhile (· ≠ .label loop) = Spin.spinLoop loop ++ Spin.restoreRax addr := by
        by_cases isRax : addr = .rax <;> simp [Spin.spinCalls, Spin.saveRax, Spin.spinLoop, isRax]
      rw [back]
      exact ⟨.looping 0 spun, .trying 2 spun r12⟩
    · have last : Spin.restoreRax addr = .jcc cond target :: rest := shape
      unfold Spin.restoreRax at last
      split at last <;> cases last
    · omega
  | looping n spun =>
    obtain ⟨_ | _ | _ | n, bound⟩ := n
    · cases shape
    · cases shape
    · cases shape
    · omega
  | _ => cases shape

theorem SpinRegs.step {a : Word} {s t : List Call × Cpu} (here : SpinRegs addr loop c s.1 s.2)
    (once : SpinTurn L a addr loop s t) : SpinRegs addr loop c t.1 t.2 := by
  obtain ⟨calls, d⟩ := s
  obtain ⟨rest, e⟩ := t
  obtain ⟨m, m', once⟩ := once
  generalize before : Spin.Spinner.spinning addr loop calls d = old at once
  generalize after : Spin.Spinner.spinning addr loop rest e = new at once
  cases once with
  | call ran =>
    cases before
    cases after
    exact here.call rfl ran
  | exchange =>
    cases before
    obtain ⟨-, -, rfl, rfl⟩ := Spin.Spinner.spinning.inj after
    exact here.call rfl (Spin.exchange_ran L.env L.address _)
  | taken =>
    cases before
    cases after
    exact (here.jump rfl).1
  | fall =>
    cases before
    cases after
    exact (here.jump rfl).2
  | leave => cases after
  | _ => cases before

/-- However the other threads come between, `gate:spin` is left with the same registers. -/
theorem SpinRegs.run {a : Word} {s t : List Call × Cpu} (here : SpinRegs addr loop c s.1 s.2)
    (run : Relation.ReflTransGen (SpinTurn L a addr loop) s t) : SpinRegs addr loop c t.1 t.2 := by
  induction run with
  | refl => exact here
  | tail _ once ih => exact ih.step once

theorem SpinRegs.done {addr : Reg} {loop : String} {c d : Cpu} {rest : List Call} (here : SpinRegs addr loop c rest d)
    (none : rest = []) : SpinDone addr c d := by
  cases here with
  | enter => cases none
  | pointed => cases none
  | looping n => match n with | 0 | 1 | 2 => cases none
  | trying n =>
    match n with
    | 0 | 1 => cases none
    | 2 =>
      have last : Spin.restoreRax addr = [] := none
      unfold Spin.restoreRax at last
      split at last <;> cases last
  | left done => exact done

end Steps

/-! ### When the registers are kept -/

/-- The compare-and-swap is one, and changes no register but the expected one, where the registers it borrows are not in
its way; `gate:spin`, by itself or among other threads, changes none where they hold already what it leaves in them. -/
theorem gate_iff {L : Listing} {M : Machine} (loaded : L.Loaded M) :
    (∀ (g : CodeGenerator) (addrName expName desName : String) (addr exp des : Reg) (i : Nat) (calls : List Call),
      resolve addrName = .ok addr → resolve expName = .ok exp → resolve desName = .ok des →
      Stands L g (.gateCas addrName expName desName) i calls → ∀ c : Cpu,
        ∃ d, M.Completes (L.offset i) (L.offset (i + calls.length)) c d ∧
          (Swapped addr exp des c d ↔ CasIntact addr exp des c)) ∧
    (∀ (g : CodeGenerator) (name : String) (addr : Reg) (i : Nat) (calls : List Call), resolve name = .ok addr →
      Stands L g (.gateSpin name) i calls → ∀ c : Cpu, c.mem.load (c.reg addr) 8 = 0 →
        ∃ d, M.Completes (L.offset i) (L.offset (i + calls.length)) c d ∧ (KeepsUser c d ↔ SpinIntact addr c)) ∧
    (∀ (addr : Reg) (loop : String) (c d : Cpu),
      Relation.ReflTransGen (SpinTurn L (c.reg addr) addr loop) (Spin.spinCalls addr loop, c) ([], d) →
        (KeepsUser c d ↔ SpinIntact addr c)) := by
  refine ⟨fun g addrName expName desName addr exp des i calls hAddr hExp hDes stands c => ?_,
    fun g name addr i calls named stands c free => ?_, fun addr loop c d run => ?_⟩
  · obtain ⟨d, ran, done⟩ := @cas_effects L.env L.address addr _ _ (user_of_resolve hExp) (user_of_resolve hDes) c
    exact stands.executes loaded (cas_appends g hAddr hExp hDes) (.straight ran done.swapped_iff)
  · obtain ⟨loop, appends⟩ := @Spin.spin_appends g _ _ named
    exact stands.executes loaded appends ((spin_meets addr loop free).mono fun d done => done.keeps_iff)
  · have start : SpinRegs addr loop c (Spin.spinCalls addr loop) c := .enter rfl
    exact ((start.run run).done rfl).keeps_iff

/-- `gate:cas reg3 = reg1, reg2`: the expected register is RAX itself, and none is borrowed. -/
theorem gate_iff_rax : ∃ (L : Listing) (M : Machine) (n : Nat) (d : Cpu), L.Loaded M ∧
    M.Completes (L.offset 0) (L.offset n) (Cpu.filled 5) d ∧ Swapped .rcx .rax .rbx (Cpu.filled 5) d := by
  obtain ⟨L, M, loaded, -, stands⟩ := exists_stands (.new false) (.gateCas "reg3" "reg1" "reg2") .silent
    (casCalls .rcx .rax .rbx) ⟨_, rfl, by decide⟩ (by decide)
  obtain ⟨d, run, right⟩ := (gate_iff loaded).1 _ _ _ _ .rcx .rax .rbx 0 _ (by decide) (by decide) (by decide) stands
    (Cpu.filled 5)
  have intact : CasIntact .rcx .rax .rbx (Cpu.filled 5) := by
    refine ⟨?_, fun _ => ?_, fun _ => rfl, fun _ => rfl⟩
    · simp [comparand, newValue, Cpu.filled, eq_comm]
    · intro wrong
      cases wrong
  exact ⟨L, M, _, d, loaded, run, right.mpr intact⟩

/-- `gate:cas reg3 = reg2, reg4` leaves RAX in R13. -/
theorem gate_wrong : ¬∀ (L : Listing) (M : Machine) (g : CodeGenerator) (addrName expName desName : String)
    (addr exp des : Reg) (i : Nat) (calls : List Call) (c d : Cpu), L.Loaded M → resolve addrName = .ok addr →
      resolve expName = .ok exp → resolve desName = .ok des → Stands L g (.gateCas addrName expName desName) i calls →
      M.Completes (L.offset i) (L.offset (i + calls.length)) c d → Swapped addr exp des c d := by
  intro always
  obtain ⟨L, M, loaded, -, stands⟩ := exists_stands (.new false) (.gateCas "reg3" "reg2" "reg4") .silent
    (casCalls .rcx .rbx .rdx) ⟨_, rfl, by decide⟩ (by decide)
  let c : Cpu := (Cpu.filled 0).set .rax 1
  obtain ⟨d, ran, done⟩ := @cas_effects L.env L.address .rcx .rbx .rdx (by decide) (by decide) c
  have run : M.Completes (L.offset 0) (L.offset (0 + (casCalls .rcx .rbx .rdx).length)) c d :=
    loaded.inside (.straight stands.here ran (Nat.le_refl _) (Nat.le_refl _))
  have swapped := always L M _ _ _ _ .rcx .rbx .rdx 0 _ c d loaded (by decide) (by decide) (by decide) stands run
  have kept : d.reg .r13 = 0 := swapped.regs .r13 (by decide) (by decide)
  have lost : d.reg .r13 = 1 := done.r13 (by decide)
  exact absurd (kept.symm.trans lost) (by decide)

end Aclm.Codegen
