import Aclm.Encoder.Effect
import Aclm.X64.Stack

/-! Registers kept on the stack around a piece of code. -/

set_option autoImplicit false

namespace Aclm.Encoder

open X64 (Word Reg Cpu Env)
open X64.Memory (StackAt OnlyIn SameOn Separate)

/-- The registers `rs` have gone onto the stack, the last one on top. -/
structure Saved (rs : List Reg) (c d : Cpu) : Prop where
  regs : ∀ r, r ≠ .rsp → d.reg r = c.reg r
  sp : d.reg .rsp = c.reg .rsp - BitVec.ofNat 64 (8 * rs.length)
  stack : StackAt d.mem (d.reg .rsp) (rs.reverse.map c.reg)
  mem : OnlyIn (d.reg .rsp) (8 * rs.length) c.mem d.mem
  trace : d.trace = c.trace

/-- The registers `rs` have their values in `c` again, and so has the stack pointer; the others are as in `k`. -/
structure Back (rs : List Reg) (c k d : Cpu) : Prop where
  saved : ∀ r ∈ rs, d.reg r = c.reg r
  others : ∀ r, r ∉ rs → r ≠ .rsp → d.reg r = k.reg r
  sp : d.reg .rsp = c.reg .rsp
  mem : d.mem = k.mem
  trace : d.trace = k.trace

theorem pushAll_effects {env : Env} {address : String → Word} {rs : List Reg} (notSp : .rsp ∉ rs) (c : Cpu) :
    effects env address (rs.map .pushReg) c = some (c.pushAll (rs.map c.reg)) := by
  induction rs generalizing c with
  | nil => rfl
  | cons r rest ih =>
    obtain ⟨-, later⟩ := not_or.mp (mt List.mem_cons.mpr notSp)
    have same : rest.map (c.push (c.reg r)).reg = rest.map c.reg :=
      List.map_congr_left fun s member => by simp [show s ≠ .rsp from fun isSp => later (isSp ▸ member)]
    rw [List.map_cons, effects_cons, effect_pushReg, Option.bind_some, ih later, same]
    rfl

theorem saved_pushAll {rs : List Reg} (fits : 8 * rs.length ≤ 2 ^ 64) (c : Cpu) : Saved rs c (c.pushAll (rs.map c.reg)) := by
  have pushed := @X64.pushAll_pushed (rs.map c.reg) (by simpa using fits) c
  refine ⟨pushed.regs, ?_, ?_, ?_, pushed.trace⟩
  · simpa using pushed.sp
  · simpa [← List.map_reverse] using pushed.stack
  · simpa using pushed.mem

theorem save_effects {env : Env} {address : String → Word} {rs : List Reg} (notSp : .rsp ∉ rs)
    (fits : 8 * rs.length ≤ 2 ^ 64) (c : Cpu) :
    ∃ d, effects env address (rs.map .pushReg) c = some d ∧ Saved rs c d :=
  ⟨_, pushAll_effects notSp c, saved_pushAll fits c⟩

theorem mem_zip_map {ρ ν : Type} {rs : List ρ} {r : ρ} (f : ρ → ν) (member : r ∈ rs) : (r, f r) ∈ rs.zip (rs.map f) := by
  have both : rs.zip (rs.map f) = rs.map fun r => (r, f r) := by
    simpa using @List.zip_map' _ _ _ id f rs
  exact both ▸ List.mem_map_of_mem member

/-- What was saved is restored if the words on the stack are still there. -/
theorem Saved.restore {env : Env} {address : String → Word} {rs : List Reg} {c m k : Cpu} (saved : Saved rs c m)
    (distinct : rs.Nodup) (notSp : .rsp ∉ rs) (fits : 8 * rs.length ≤ 2 ^ 64) (sp : k.reg .rsp = m.reg .rsp)
    (kept : SameOn (m.reg .rsp) (8 * rs.length) m.mem k.mem) :
    ∃ d, effects env address (rs.reverse.map .popReg) k = some d ∧ Back rs c k d := by
  have start : StackAt m.mem (m.reg .rsp + BitVec.ofNat 64 0) (rs.reverse.map c.reg) := by simpa using saved.stack
  have stack := kept.stackAt start (by simp) fits
  have top : StackAt k.mem (k.reg .rsp) (rs.reverse.map c.reg ++ []) := by simpa [sp] using stack
  obtain ⟨d, ran, restored⟩ := @pops_effects env address _ _ [] k (by simp) (List.nodup_reverse.mpr distinct)
    (by simpa using notSp) top
  refine ⟨d, ran, fun r member => ?_, fun r other => restored.others r (by simpa using other), ?_, restored.mem,
    restored.trace⟩
  · exact restored.values _ (mem_zip_map c.reg (List.mem_reverse.mpr member))
  · rw [restored.sp, sp, saved.sp]
    simp only [List.length_map, List.length_reverse]
    bv_omega

/-- Memory apart from the words pushed. -/
theorem Saved.sameOn {rs : List Reg} {c m : Cpu} (saved : Saved rs c m) {a : Word} {n : Nat}
    (clear : Separate (c.reg .rsp - BitVec.ofNat 64 (8 * rs.length)) (8 * rs.length) a n) : SameOn a n c.mem m.mem :=
  saved.mem.sameOn (saved.sp ▸ clear)

theorem Saved.sameAbove {rs : List Reg} {c m : Cpu} (saved : Saved rs c m) :
    X64.Memory.SameAbove (c.reg .rsp) (8 * rs.length) c.mem m.mem :=
  (saved.sp ▸ saved.mem : OnlyIn (c.reg .rsp - BitVec.ofNat 64 (8 * rs.length)) _ _ _).sameAbove

/-- A store apart from the words pushed. -/
theorem Saved.keeps {rs : List Reg} {c m : Cpu} (saved : Saved rs c m) {a : Word} {n : Nat}
    (clear : Separate (c.reg .rsp - BitVec.ofNat 64 (8 * rs.length)) (8 * rs.length) a n) (nonempty : rs ≠ [])
    {mem : X64.Memory} (only : OnlyIn a n m.mem mem) : SameOn (m.reg .rsp) (8 * rs.length) m.mem mem := by
  have positive := List.length_pos_of_ne_nil nonempty
  exact only.sameOn ((saved.sp ▸ clear).symm (by omega))

/-- The code of `body` between saving `rs` and restoring them. -/
def saving (rs : List Reg) (body : List Call) : List Call := rs.map .pushReg ++ body ++ rs.reverse.map .popReg

end Aclm.Encoder
