import Aclm.X64.Machine
import Aclm.X64.Region

/-! The bytes that an instruction reads and writes, and runs that stay inside a part of the memory. -/

set_option autoImplicit false

namespace Aclm.X64

open Memory (range)

theorem Memory.mem_range {x a : Word} {n : Nat} : x ∈ range a n ↔ (x - a).toNat < n := Iff.rfl

/-- The bytes that a string instruction comes to from `p`, as a range: it goes downwards where DF is set. -/
def Cpu.span (c : Cpu) (p : Word) : Word × Nat :=
  let n := (c.reg .rcx).toNat
  (if c.flags.df then p + 1 - BitVec.ofNat 64 n else p, n)

/-- The whole memory, as a range. -/
def everywhere : Word × Nat := (0, 2 ^ 64)

/-- The ranges of memory that an instruction reads or writes. A system call may do anything to the memory. -/
def Instr.touches (c : Cpu) : Instr → List (Word × Nat)
  | .load n _ src => [(c.address src, n)]
  | .store n dst _ => [(c.address dst, n)]
  | .push _ | .call _ | .callReg _ => [(c.reg .rsp - 8, 8)]
  | .pop _ | .ret => [(c.reg .rsp, 8)]
  | .iretq => [(c.reg .rsp, 40)]
  | .lidt src => [(c.address src, 10)]
  | .lockCmpxchg dst _ => [(c.address dst, 8)]
  | .repStosb => [c.span (c.reg .rdi)]
  | .repMovsb => [c.span (c.reg .rdi), c.span (c.reg .rsi)]
  | .syscall => [everywhere]
  | _ => []

/-- Every range lies in the region. -/
def Covered (region : Set Word) (ranges : List (Word × Nat)) : Prop := ∀ a ∈ ranges, range a.1 a.2 ⊆ region

section Covered

variable {region : Set Word} {a : Word × Nat} {as bs : List (Word × Nat)}

@[simp] theorem covered_nil : Covered region [] := fun _ member => absurd member List.not_mem_nil

@[simp] theorem covered_cons : Covered region (a :: as) ↔ range a.1 a.2 ⊆ region ∧ Covered region as :=
  List.forall_mem_cons

theorem covered_append : Covered region (as ++ bs) ↔ Covered region as ∧ Covered region bs := List.forall_mem_append

end Covered

/-! ### What is not touched is kept -/

section Kept

variable {c d : Cpu} {x : Word} {m : Memory} {n : Nat}

theorem store_untouched {a v : Word} (outside : x ∉ range a n) : m.store a n v x = m x :=
  Memory.store_of_le (Nat.le_of_not_lt outside)

theorem mem_everywhere (x : Word) : x ∈ range everywhere.1 everywhere.2 := by
  unfold range everywhere
  exact (x - 0).isLt

/-- A string instruction that writes a byte at RDI and moves on, as often as RCX says. -/
theorem string_untouched {f : Cpu → Cpu} (writes : ∀ c, ∀ x, x ≠ c.reg .rdi → (f c).mem x = c.mem x)
    (moves : ∀ c, (f c).reg .rdi = c.reg .rdi + c.stride ∧ (f c).flags = c.flags) (n : Nat) (c : Cpu)
    (outside : ∀ k < n, x ≠ c.reg .rdi + BitVec.ofNat 64 k * c.stride) : (f^[n] c).mem x = c.mem x := by
  induction n generalizing c with
  | zero => rfl
  | succ n ih =>
    obtain ⟨rdi, flags⟩ := moves c
    have here : x ≠ c.reg .rdi := by simpa using outside 0 (Nat.succ_pos n)
    have stride : (f c).stride = c.stride := by rw [Cpu.stride, flags, Cpu.stride]
    rw [Function.iterate_succ_apply, ih (f c) fun k small => ?_, writes c x here]
    have next := outside (k + 1) (Nat.succ_lt_succ small)
    rwa [rdi, stride, BitVec.add_assoc, show c.stride + BitVec.ofNat 64 k * c.stride = BitVec.ofNat 64 (k + 1) * c.stride by
      rw [BitVec.ofNat_add, BitVec.add_mul, BitVec.add_comm]
      simp]

theorem span_untouched {p : Word} (outside : x ∉ range (c.span p).1 (c.span p).2) {k : Nat}
    (small : k < (c.reg .rcx).toNat) : x ≠ p + BitVec.ofNat 64 k * c.stride := by
  rintro rfl
  have wide := (c.reg .rcx).isLt
  refine outside ?_
  unfold Cpu.span Cpu.stride
  simp only [Memory.mem_range]
  split
  · rw [show BitVec.ofNat 64 k * -1 = -BitVec.ofNat 64 k by rw [BitVec.mul_neg]; simp]
    bv_omega
  · bv_omega

theorem push_untouched {v : Word} (outside : x ∉ range (c.reg .rsp - 8) 8) : (c.push v).mem x = c.mem x := by
  rw [Cpu.push_mem]
  exact store_untouched outside

theorem exec_untouched {env : Env} {i : Instr} (ran : i.exec env c = some d) (outside : ∀ a ∈ i.touches c, x ∉ range a.1 a.2) :
    d.mem x = c.mem x := by
  cases i with
  | syscall =>
    have none : x ∉ range everywhere.1 everywhere.2 := outside everywhere (by simp [Instr.touches])
    exact absurd (mem_everywhere x) none
  | store n dst src =>
    have away : x ∉ range (c.address dst) n := outside (c.address dst, n) (by simp [Instr.touches])
    cases ran
    exact store_untouched away
  | push r =>
    cases ran
    exact push_untouched (outside (c.reg .rsp - 8, 8) (by simp [Instr.touches]))
  | lockCmpxchg dst src =>
    have away : x ∉ range (c.address dst) 8 := outside (c.address dst, 8) (by simp [Instr.touches])
    cases ran
    split
    · exact store_untouched away
    · rfl
  | repStosb =>
    have away := outside (c.span (c.reg .rdi)) (by simp [Instr.touches])
    cases ran
    refine @string_untouched x Cpu.stosb (fun c x other => ?_) (fun c => ⟨by simp [Cpu.stosb], rfl⟩) _ c fun k small => span_untouched away small
    exact Memory.store_of_le (by bv_omega)
  | repMovsb =>
    have away := outside (c.span (c.reg .rdi)) (by simp [Instr.touches])
    cases ran
    refine @string_untouched x Cpu.movsb (fun c x other => ?_) (fun c => ⟨by simp [Cpu.movsb], rfl⟩) _ c fun k small => span_untouched away small
    exact Memory.store_of_le (by bv_omega)
  | wide op src =>
    cases op with
    | mul =>
      cases ran
      rfl
    | div | idiv =>
      simp only [Instr.exec, Wide.apply] at ran
      split at ran <;> cases ran
      rfl
  | cmov cond dst src =>
    cases ran
    split <;> rfl
  | leaRip | jmp | jcc | call | callReg | ret | iretq | sysret => cases ran
  | _ =>
    cases ran
    rfl

end Kept

/-! ### Runs inside a part of the memory -/

namespace Machine

variable (M : Machine)

/-- The instruction that comes next touches nothing outside the region. -/
def Confined (region : Set Word) (s : State) : Prop := ∀ i next, M.fetch s.pc = some (i, next) → Covered region (i.touches s.cpu)

/-- Zero or more confined steps, each taken from inside a range of the text. -/
def Within (region : Set Word) (lo hi : Nat) : State → State → Prop :=
  Relation.ReflTransGen fun s t => lo ≤ s.pc ∧ s.pc < hi ∧ M.step s = some t ∧ M.Confined region s

variable {M} {region : Set Word} {lo hi : Nat} {s t u : State}

theorem perform_untouched {i : Instr} {next : Nat} {c : Cpu} (ran : M.perform i next c = some t) {x : Word}
    (outside : ∀ a ∈ i.touches c, x ∉ range a.1 a.2) : t.cpu.mem x = c.mem x := by
  cases i with
  | jmp disp =>
    obtain ⟨o, -, rfl⟩ := Option.map_eq_some_iff.mp ran
    rfl
  | jcc cond disp =>
    simp only [perform] at ran
    split at ran
    · obtain ⟨o, -, rfl⟩ := Option.map_eq_some_iff.mp ran
      rfl
    · cases ran
      rfl
  | call disp =>
    obtain ⟨o, -, rfl⟩ := Option.map_eq_some_iff.mp ran
    exact push_untouched (outside (c.reg .rsp - 8, 8) (by simp [Instr.touches]))
  | callReg r =>
    cases ran
    exact push_untouched (outside (c.reg .rsp - 8, 8) (by simp [Instr.touches]))
  | ret | iretq | sysret | leaRip =>
    simp only [perform, Option.some.injEq] at ran
    subst ran
    simp
  | _ =>
    simp only [perform] at ran
    obtain ⟨d, executed, rfl⟩ := Option.map_eq_some_iff.mp ran
    exact exec_untouched executed outside

theorem step_untouched (once : M.step s = some t) (confined : M.Confined region s) {x : Word} (outside : x ∉ region) :
    t.cpu.mem x = s.cpu.mem x := by
  obtain ⟨⟨i, next⟩, fetched, performed⟩ := Option.bind_eq_some_iff.mp once
  exact perform_untouched performed fun a member inside => outside (confined i next fetched a member inside)

namespace Within

theorem refl (s : State) : M.Within region lo hi s s := Relation.ReflTransGen.refl

theorem trans (first : M.Within region lo hi s t) (second : M.Within region lo hi t u) : M.Within region lo hi s u :=
  Relation.ReflTransGen.trans first second

theorem single (lower : lo ≤ s.pc) (upper : s.pc < hi) (once : M.step s = some t) (confined : M.Confined region s) :
    M.Within region lo hi s t := Relation.ReflTransGen.single ⟨lower, upper, once, confined⟩

theorem mono {lo' hi' : Nat} (run : M.Within region lo hi s t) (lower : lo' ≤ lo) (upper : hi ≤ hi') :
    M.Within region lo' hi' s t :=
  Relation.ReflTransGen.mono (fun _ _ once => ⟨lower.trans once.1, once.2.1.trans_le upper, once.2.2⟩) _ _ run

theorem inside (run : M.Within region lo hi s t) : M.Inside lo hi s t :=
  Relation.ReflTransGen.mono (fun _ _ once => ⟨once.1, once.2.1, once.2.2.1⟩) _ _ run

/-- The machine is deterministic: what is reached on the way out of the range is on the run. -/
theorem confined (run : M.Within region lo hi s t) (left : hi ≤ t.pc) (reached : M.Inside lo hi s u) (inside : u.pc < hi) :
    M.Confined region u := by
  induction run using Relation.ReflTransGen.head_induction_on with
  | refl => exact absurd (reached.eq_of_left left ▸ inside) (by omega)
  | head once _ ih =>
    obtain ⟨-, -, once, confined⟩ := once
    rcases reached.cases_head with rfl | ⟨v, other, rest⟩
    · exact confined
    · cases once.symm.trans other.2.2
      exact ih rest

end Within

/-- A piece of the text is entered in `c`, and on the way through it nothing is touched outside the region. -/
def Stays (region : Set Word) (lo hi : Nat) (c : Cpu) : Prop :=
  ∀ s, M.Inside lo hi ⟨lo, c⟩ s → s.pc < hi → M.Confined region s

theorem Stays.untouched {c : Cpu} (stays : M.Stays region lo hi c) (run : M.Inside lo hi ⟨lo, c⟩ s) {x : Word}
    (outside : x ∉ region) : s.cpu.mem x = c.mem x := by
  induction run with
  | refl => rfl
  | tail before once ih =>
    obtain ⟨-, upper, once⟩ := once
    exact (step_untouched once (stays _ before upper) outside).trans ih

end Machine

/-- The ranges that straight-line instructions touch one after the other. -/
def touchesAll (env : Env) : List Instr → Cpu → List (Word × Nat)
  | [], _ => []
  | i :: is, c => i.touches c ++ (i.exec env c).elim [] (touchesAll env is)

theorem Machine.within_of_spells {M : Machine} {region : Set Word} {bs : List Byte} {is : List Instr} (spells : Spells bs is)
    {o : Nat} (here : M.CodeAt o bs) {c d : Cpu} (ran : execAll M.env is c = some d)
    (covered : Covered region (touchesAll M.env is c)) :
    M.Within region o (o + bs.length) ⟨o, c⟩ ⟨o + bs.length, d⟩ := by
  induction spells generalizing o c with
  | nil =>
    cases ran
    exact .refl _
  | @cons bs rest i is nonempty decoded _ ih =>
    obtain ⟨first, second⟩ := here.append
    obtain ⟨m, head, tail⟩ := Option.bind_eq_some_iff.mp ran
    rw [touchesAll, head, Option.elim_some, covered_append] at covered
    have once : M.step ⟨o, c⟩ = some ⟨o + bs.length, m⟩ := by
      rw [step_eq first nonempty decoded, perform_eq head]
    have confined : M.Confined region ⟨o, c⟩ := by
      intro i' next fetched
      cases (fetch_eq first nonempty decoded).symm.trans fetched
      exact covered.1
    have positive := List.length_pos_of_ne_nil nonempty
    rw [List.length_append, ← Nat.add_assoc]
    exact (Within.single (Nat.le_refl o) (show o < _ by omega) once confined).trans
      ((ih second tail covered.2).mono (by omega) (Nat.le_refl _))

/-- One spelled instruction, transfers included. -/
theorem Machine.within_of_perform {M : Machine} {region : Set Word} {bs : List Byte} {i : Instr} (spells : Spells bs [i])
    {o : Nat} (here : M.CodeAt o bs) {c : Cpu} {t : State} (performed : M.perform i (o + bs.length) c = some t)
    (covered : Covered region (i.touches c)) : M.Within region o (o + bs.length) ⟨o, c⟩ t := by
  obtain ⟨nonempty, decoded⟩ := spells.single_inv
  have positive := List.length_pos_of_ne_nil nonempty
  refine .single (Nat.le_refl o) (show o < _ by omega) ((step_eq here nonempty decoded c).trans performed) ?_
  intro i' next fetched
  cases (fetch_eq here nonempty decoded).symm.trans fetched
  exact covered

end Aclm.X64
