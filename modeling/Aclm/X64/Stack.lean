import Aclm.X64.Instr
import Aclm.X64.Region

/-! Words pushed one after the other, and the frame that is pushed when a handler is entered. -/

set_option autoImplicit false

namespace Aclm.X64

open Memory (StackAt OnlyIn)

theorem Memory.StackAt.join {m : Memory} {p : Word} {ws vs : List Word} (front : StackAt m p ws)
    (rest : StackAt m (p + BitVec.ofNat 64 (8 * ws.length)) vs) : StackAt m p (ws ++ vs) := by
  induction ws generalizing p with
  | nil => simpa using rest
  | cons w ws ih =>
    have shift : p + BitVec.ofNat 64 (8 * (w :: ws).length) = p + 8 + BitVec.ofNat 64 (8 * ws.length) := by
      simp only [List.length_cons]
      bv_omega
    exact ⟨front.1, ih front.2 (shift ▸ rest)⟩

def Cpu.pushAll (c : Cpu) (ws : List Word) : Cpu := ws.foldl Cpu.push c

/-- The words `ws` are on the stack, the last one on top, and nothing else has changed. -/
structure Pushed (ws : List Word) (c d : Cpu) : Prop where
  regs : ∀ r, r ≠ .rsp → d.reg r = c.reg r
  sp : d.reg .rsp = c.reg .rsp - BitVec.ofNat 64 (8 * ws.length)
  stack : StackAt d.mem (d.reg .rsp) ws.reverse
  mem : OnlyIn (d.reg .rsp) (8 * ws.length) c.mem d.mem
  flags : d.flags = c.flags
  trace : d.trace = c.trace

theorem pushAll_pushed {ws : List Word} (fits : 8 * ws.length ≤ 2 ^ 64) (c : Cpu) : Pushed ws c (c.pushAll ws) := by
  induction ws using List.reverseRecOn with
  | nil => exact ⟨fun _ _ => rfl, by simp [Cpu.pushAll], trivial, fun _ _ => rfl, rfl, rfl⟩
  | append_singleton ws w ih =>
    simp only [List.length_append, List.length_singleton] at fits
    have pushed := ih (by omega)
    have shape : c.pushAll (ws ++ [w]) = (c.pushAll ws).push w := by simp [Cpu.pushAll]
    generalize c.pushAll ws = m at pushed shape
    have back : m.reg .rsp = m.reg .rsp - 8 + BitVec.ofNat 64 8 := by bv_omega
    rw [shape]
    refine ⟨fun r other => ?_, ?_, ?_, ?_, pushed.flags, pushed.trace⟩
    · simpa [other] using pushed.regs r other
    · simp only [Cpu.push_reg, if_true, pushed.sp, List.length_append, List.length_singleton]
      bv_omega
    · have stack := pushed.stack.push w (by simpa using fits)
      simpa using stack
    · have lower := pushed.mem
      rw [back] at lower
      have below : OnlyIn (m.reg .rsp - 8) (8 * (ws.length + 1)) m.mem (m.push w).mem := by
        simpa using @OnlyIn.store (m.reg .rsp - 8) _ 8 m.mem 0 (by omega) fits w
      simpa using (lower.widen (by omega) fits).trans below

/-- The processor enters a handler without a change of privilege: behind the aligned stack pointer it pushes SS, RSP,
RFLAGS, CS and RIP. -/
def Cpu.interrupt (c : Cpu) (rip cs rflags ss : Word) : Cpu :=
  (c.set .rsp (c.reg .rsp - BitVec.ofNat 64 ((c.reg .rsp).toNat % 16))).pushAll [ss, c.reg .rsp, rflags, cs, rip]

/-- The frame is on the stack; it takes forty bytes, and the alignment up to fifteen. -/
structure Interrupted (frame : List Word) (c d : Cpu) : Prop where
  regs : ∀ r, r ≠ .rsp → d.reg r = c.reg r
  sp : ∃ k < 16, d.reg .rsp = c.reg .rsp - BitVec.ofNat 64 (40 + k)
  stack : StackAt d.mem (d.reg .rsp) frame
  mem : OnlyIn (d.reg .rsp) 40 c.mem d.mem
  trace : d.trace = c.trace

theorem interrupt_interrupted (c : Cpu) (rip cs rflags ss : Word) :
    Interrupted [rip, cs, rflags, c.reg .rsp, ss] c (c.interrupt rip cs rflags ss) := by
  have pushed := @pushAll_pushed [ss, c.reg .rsp, rflags, cs, rip] (show 8 * 5 ≤ 2 ^ 64 by decide)
    (c.set .rsp (c.reg .rsp - BitVec.ofNat 64 ((c.reg .rsp).toNat % 16)))
  refine ⟨fun r other => ?_, ⟨_, Nat.mod_lt (c.reg .rsp).toNat (by decide), ?_⟩, pushed.stack, pushed.mem, pushed.trace⟩
  · exact (pushed.regs r other).trans (by simp [other])
  · have sp := pushed.sp
    simp only [Cpu.set_reg, if_true, List.length_cons, List.length_nil] at sp
    rw [Cpu.interrupt, sp]
    bv_omega

end Aclm.X64
