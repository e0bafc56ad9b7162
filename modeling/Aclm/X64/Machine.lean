import Aclm.X64.Decode
import Mathlib.Logic.Relation

/-! A processor running a program text, and its runs.
A program counter is an offset into the text; leaving the text, or meeting bytes that do not
decode, has no outgoing transition. -/

set_option autoImplicit false

namespace Aclm.X64

structure Machine where
  code : List Byte
  /-- The address at which the text is loaded. -/
  base : Word
  env : Env

structure State where
  pc : Nat
  cpu : Cpu

/-- The offset a displacement leads to from the end of its instruction. -/
def target (next : Nat) (disp : Int) : Option Nat :=
  if 0 ≤ next + disp then some (next + disp).toNat else none

namespace Machine

variable (M : Machine)

def address (o : Nat) : Word := M.base + BitVec.ofNat 64 o

/-- The instruction at an offset and the offset after it. -/
def fetch (pc : Nat) : Option (Instr × Nat) :=
  (decode (M.code.drop pc)).map fun v => (v.1, M.code.length - v.2.length)

def perform (i : Instr) (next : Nat) (c : Cpu) : Option State :=
  match i with
  | .jmp disp => (target next disp).map (⟨·, c⟩)
  | .jcc cond disp =>
    if cond.holds c.flags then (target next disp).map (⟨·, c⟩) else some ⟨next, c⟩
  | .call disp => (target next disp).map (⟨·, c.push (M.address next)⟩)
  | .callReg r => some ⟨(c.reg r - M.base).toNat, c.push (M.address next)⟩
  | .ret => some ⟨(c.pop.1 - M.base).toNat, c.pop.2⟩
  -- The words are RIP, CS, RFLAGS, RSP and SS; the selectors are not part of the model.
  | .iretq =>
    let word (k : Nat) := c.mem.load (c.reg .rsp + BitVec.ofNat 64 (8 * k)) 8
    some ⟨(word 0 - M.base).toNat, (c.set .rsp (word 3)).setFlags (.ofWord (word 2))⟩
  | .sysret => some ⟨(c.reg .rcx - M.base).toNat, c.setFlags (.ofWord (c.reg .r11))⟩
  | .leaRip dst disp => some ⟨next, c.set dst (M.address next + BitVec.ofInt 64 disp)⟩
  | i => (i.exec M.env c).map (⟨next, ·⟩)

def step (s : State) : Option State := do
  let (i, next) ← M.fetch s.pc
  M.perform i next s.cpu

/-- Zero or more steps. -/
def Steps : State → State → Prop := Relation.ReflTransGen fun s t => M.step s = some t

/-- Zero or more steps, each taken from inside a range of the text. -/
def Inside (lo hi : Nat) : State → State → Prop :=
  Relation.ReflTransGen fun s t => lo ≤ s.pc ∧ s.pc < hi ∧ M.step s = some t

/-- A piece of the text is entered at its front and left at its end. -/
def Completes (lo hi : Nat) (c d : Cpu) : Prop := M.Inside lo hi ⟨lo, c⟩ ⟨hi, d⟩

/-- The bytes of the text at an offset. -/
def CodeAt (o : Nat) (bs : List Byte) : Prop := bs <+: M.code.drop o

variable {M}

theorem Steps.refl (s : State) : M.Steps s s := Relation.ReflTransGen.refl

theorem Steps.trans {s t u : State} (first : M.Steps s t) (second : M.Steps t u) : M.Steps s u :=
  Relation.ReflTransGen.trans first second

theorem Steps.single {s t : State} (once : M.step s = some t) : M.Steps s t :=
  Relation.ReflTransGen.single once

/-- The machine is deterministic: of two runs from one state, one continues the other. -/
theorem Steps.total {s t u : State} (left : M.Steps s t) (right : M.Steps s u) :
    M.Steps t u ∨ M.Steps u t :=
  Relation.ReflTransGen.total_of_right_unique
    (fun _ _ _ first second => Option.some.inj (first.symm.trans second)) left right

/-- A run from a state that cannot step stays there. -/
theorem Steps.eq_of_stuck {s t : State} (run : M.Steps s t) (stuck : M.step s = none) : t = s := by
  cases run.cases_head with
  | inl same => exact same.symm
  | inr more =>
    obtain ⟨_, once, _⟩ := more
    rw [stuck] at once
    cases once

/-! ### Runs of a piece of the text -/

namespace Inside

variable {lo hi : Nat} {s t u : State}

theorem refl (s : State) : M.Inside lo hi s s := Relation.ReflTransGen.refl

theorem trans (first : M.Inside lo hi s t) (second : M.Inside lo hi t u) : M.Inside lo hi s u :=
  Relation.ReflTransGen.trans first second

theorem single (from_lo : lo ≤ s.pc) (below : s.pc < hi) (once : M.step s = some t) : M.Inside lo hi s t :=
  Relation.ReflTransGen.single ⟨from_lo, below, once⟩

theorem mono {lo' hi' : Nat} (run : M.Inside lo hi s t) (lower : lo' ≤ lo) (upper : hi ≤ hi') :
    M.Inside lo' hi' s t :=
  Relation.ReflTransGen.mono
    (fun _ _ once => ⟨lower.trans once.1, once.2.1.trans_le upper, once.2.2⟩) _ _ run

theorem steps (run : M.Inside lo hi s t) : M.Steps s t :=
  Relation.ReflTransGen.mono (fun _ _ once => once.2.2) _ _ run

theorem total (left : M.Inside lo hi s t) (right : M.Inside lo hi s u) : M.Inside lo hi t u ∨ M.Inside lo hi u t :=
  Relation.ReflTransGen.total_of_right_unique
    (fun _ _ _ first second => Option.some.inj (first.2.2.symm.trans second.2.2)) left right

/-- Outside the range there is no step. -/
theorem eq_of_left (run : M.Inside lo hi s t) (left : hi ≤ s.pc) : t = s := by
  cases run.cases_head with
  | inl same => exact same.symm
  | inr more =>
    obtain ⟨_, once, _⟩ := more
    exact absurd once.2.1 (by omega)

end Inside

/-- The state in which a piece of text is left is determined by the one in which it is entered. -/
theorem Completes.unique {lo hi : Nat} {c d e : Cpu} (left : M.Completes lo hi c d) (right : M.Completes lo hi c e) :
    d = e := by
  rcases Inside.total left right with onward | onward
  · have same := onward.eq_of_left (Nat.le_refl hi)
    exact (congrArg State.cpu same).symm
  · have same := onward.eq_of_left (Nat.le_refl hi)
    exact congrArg State.cpu same

theorem CodeAt.append {o : Nat} {as bs : List Byte} (here : M.CodeAt o (as ++ bs)) :
    M.CodeAt o as ∧ M.CodeAt (o + as.length) bs := by
  obtain ⟨rest, shape⟩ := here
  refine ⟨⟨bs ++ rest, by simpa using shape⟩, ⟨rest, ?_⟩⟩
  rw [← List.drop_drop, ← shape]
  simp

theorem fetch_eq {o : Nat} {bs : List Byte} {i : Instr} (here : M.CodeAt o bs) (nonempty : bs ≠ [])
    (decoded : ∀ rest, decode (bs ++ rest) = some (i, rest)) :
    M.fetch o = some (i, o + bs.length) := by
  obtain ⟨rest, shape⟩ := here
  have size := congrArg List.length shape
  have positive := List.length_pos_of_ne_nil nonempty
  simp only [List.length_append, List.length_drop] at size
  have next : M.code.length - rest.length = o + bs.length := by omega
  rw [fetch, ← shape, decoded, Option.map_some, next]

theorem step_eq {o : Nat} {bs : List Byte} {i : Instr} (here : M.CodeAt o bs) (nonempty : bs ≠ [])
    (decoded : ∀ rest, decode (bs ++ rest) = some (i, rest)) (c : Cpu) :
    M.step ⟨o, c⟩ = M.perform i (o + bs.length) c := by
  simp [step, fetch_eq here nonempty decoded]

/-- An instruction that has a result is not a transfer, and runs on to the next one. -/
theorem perform_eq {i : Instr} {c d : Cpu} (ran : i.exec M.env c = some d) (next : Nat) :
    M.perform i next c = some ⟨next, d⟩ := by
  cases i <;> first | (simp only [perform, ran, Option.map_some]; done) | cases ran

end Machine

/-- Straight-line instructions one after the other. -/
def execAll (env : Env) : List Instr → Cpu → Option Cpu
  | [], c => some c
  | i :: is, c => (i.exec env c).bind (execAll env is)

/-- Spelled instructions run from the first byte to the byte after the last. -/
theorem Machine.inside_of_spells {M : Machine} {bs : List Byte} {is : List Instr} (spells : Spells bs is)
    {o : Nat} (here : M.CodeAt o bs) {c d : Cpu} (ran : execAll M.env is c = some d) :
    M.Inside o (o + bs.length) ⟨o, c⟩ ⟨o + bs.length, d⟩ := by
  induction spells generalizing o c with
  | nil => cases ran; exact .refl _
  | @cons bs rest i is nonempty decoded _ ih =>
    obtain ⟨first, second⟩ := here.append
    obtain ⟨m, head, tail⟩ := Option.bind_eq_some_iff.mp ran
    have once : M.step ⟨o, c⟩ = some ⟨o + bs.length, m⟩ := by
      rw [step_eq first nonempty decoded, perform_eq head]
    have positive := List.length_pos_of_ne_nil nonempty
    rw [List.length_append, ← Nat.add_assoc]
    exact (Inside.single (Nat.le_refl o) (show o < _ by omega) once).trans ((ih second tail).mono (by omega) (Nat.le_refl _))

/-- The bytes of one instruction. -/
theorem Spells.single_inv {bs : List Byte} {i : Instr} (spells : Spells bs [i]) :
    bs ≠ [] ∧ ∀ rest, decode (bs ++ rest) = some (i, rest) := by
  obtain ⟨is, single⟩ : ∃ is, is = [i] := ⟨_, rfl⟩
  rw [← single] at spells
  cases spells with
  | nil => cases single
  | cons nonempty decoded more =>
    cases single
    cases more
    rw [List.append_nil]
    exact ⟨nonempty, decoded⟩

theorem Machine.fetch_of_spells {M : Machine} {bs : List Byte} {i : Instr} (spells : Spells bs [i]) {o : Nat}
    (here : M.CodeAt o bs) : M.fetch o = some (i, o + bs.length) :=
  fetch_eq here spells.single_inv.1 spells.single_inv.2

/-- One spelled instruction, transfers included. -/
theorem Machine.inside_of_perform {M : Machine} {bs : List Byte} {i : Instr} (spells : Spells bs [i])
    {o : Nat} (here : M.CodeAt o bs) {c : Cpu} {t : State} (performed : M.perform i (o + bs.length) c = some t) :
    M.Inside o (o + bs.length) ⟨o, c⟩ t := by
  obtain ⟨nonempty, decoded⟩ := spells.single_inv
  have positive := List.length_pos_of_ne_nil nonempty
  exact .single (Nat.le_refl o) (show o < _ by omega) ((step_eq here nonempty decoded c).trans performed)

end Aclm.X64
