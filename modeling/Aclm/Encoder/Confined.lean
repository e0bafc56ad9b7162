import Aclm.Encoder.Saved
import Aclm.X64.Accesses

/-! Code that touches no memory outside a region, from its front to its end. -/

set_option autoImplicit false

namespace Aclm.Encoder

open X64.Memory (SameOn range mem_range)
open X64 (Word Reg Cond Cpu Env Machine Instr Covered covered_append covered_cons covered_nil touchesAll)

/-- One of two pieces of code: `other` where the condition holds. -/
def either (cond yes done : String) (first other : List Call) : List Call :=
  [.jcc cond yes] ++ first ++ [.jmp done, .label yes] ++ other ++ [.label done]

/-- The ranges of memory that a call reads or writes. -/
def Call.touches (env : Env) (c : Cpu) (call : Call) : List (Word × Nat) := touchesAll env (call.instrs 0) c

/-- The ranges that straight-line calls touch one after the other. -/
def touches (env : Env) (address : String → Word) : List Call → Cpu → List (Word × Nat)
  | [], _ => []
  | call :: calls, c => call.touches env c ++ (call.effect env address c).elim [] (touches env address calls)

section Touches

variable (env : Env) (address : String → Word) (c : Cpu)

@[simp] theorem touches_nil : touches env address [] c = [] := (rfl)

@[simp] theorem touches_cons (call : Call) (calls : List Call) : touches env address (call :: calls) c =
    call.touches env c ++ after [] (call.effect env address c) (touches env address calls) := (rfl)

theorem touches_append {as bs : List Call} {m : Cpu} (ran : effects env address as c = some m) :
    touches env address (as ++ bs) c = touches env address as c ++ touches env address bs m := by
  induction as generalizing c with
  | nil =>
    cases ran
    rfl
  | cons call calls ih =>
    obtain ⟨d, head, tail⟩ := Option.bind_eq_some_iff.mp ran
    simp only [List.cons_append, touches, head, Option.elim_some, ih d tail, List.append_assoc]

/-- The calls that leave the memory alone, whatever they do to the registers. -/
def Call.registersOnly : Call → Bool
  | label _ | movRegImm64 .. | movRegReg .. | binopRegReg .. | binopRegImm .. | imulRegReg .. | unaryReg .. | cqo | shiftRegImm8 ..
  | shiftRegCl .. | setccReg .. | jmp _ | jcc .. | hlt | leaRegLabel .. | cmovRegReg .. => true
  | _ => false

theorem touches_registersOnly {call : Call} (plain : call.registersOnly = true) : call.touches env c = [] := by
  cases call with
  | movRegReg dst src =>
    by_cases same : dst = src <;> simp [Call.touches, Call.instrs, touchesAll, same, Instr.touches, Instr.exec]
  | binopRegReg op => cases op <;> rfl
  | unaryReg op r =>
    cases op <;> simp only [Call.touches, Call.instrs, touchesAll, UnaryOp.instr, Instr.touches, List.nil_append] <;>
      cases Instr.exec env _ c <;> rfl
  | load | store | call | ret | pushReg | popReg | syscall | inAlDx | xchgRegReg | bytes => cases plain
  | _ => rfl

/-- A displacement does not show in them. -/
theorem touches_disp (call : Call) (disp : Int) : touchesAll env (call.instrs disp) c = call.touches env c := by
  cases call <;> rfl

@[simp] theorem touches_pushReg (r : Reg) : (Call.pushReg r).touches env c = [(c.reg .rsp - 8, 8)] := rfl

@[simp] theorem touches_popReg (r : Reg) : (Call.popReg r).touches env c = [(c.reg .rsp, 8)] := rfl

@[simp] theorem touches_leaRegLabel (dst : Reg) (name : String) : (Call.leaRegLabel dst name).touches env c = [] :=
  touches_registersOnly env c rfl

@[simp] theorem touches_movRegImm64 (dst : Reg) (imm : Int) : (Call.movRegImm64 dst imm).touches env c = [] :=
  touches_registersOnly env c rfl

@[simp] theorem touches_movRegReg (dst src : Reg) : (Call.movRegReg dst src).touches env c = [] :=
  touches_registersOnly env c rfl

@[simp] theorem touches_binopRegReg (op : BinOp) (dst src : Reg) : (Call.binopRegReg op dst src).touches env c = [] :=
  touches_registersOnly env c rfl

@[simp] theorem touches_binopRegImm (op : ImmOp) (dst : Reg) (imm : Int) : (Call.binopRegImm op dst imm).touches env c = [] :=
  touches_registersOnly env c rfl

@[simp] theorem touches_shiftRegImm8 (op : ShiftOp) (r : Reg) (imm : Int) : (Call.shiftRegImm8 op r imm).touches env c = [] :=
  touches_registersOnly env c rfl

theorem touches_load (size : Size) (dst base : Reg) (disp scale : Int) :
    (Call.load size dst ⟨base, disp, none, scale⟩).touches env c = [(c.reg base + BitVec.ofInt 64 disp, size.bytes)] := by
  simp [Call.touches, Call.instrs, touchesAll, Instr.touches, Instr.exec, ← at_base base disp scale, Mem.at]

theorem touches_store (size : Size) (src base : Reg) (disp scale : Int) :
    (Call.store size ⟨base, disp, none, scale⟩ src).touches env c = [(c.reg base + BitVec.ofInt 64 disp, size.bytes)] := by
  simp [Call.touches, Call.instrs, touchesAll, Instr.touches, Instr.exec, ← at_base base disp scale, Mem.at]

/-! Under the names the emitters use. -/

@[simp] theorem touches_addRegReg (dst src : Reg) : (addRegReg dst src).touches env c = [] := touches_binopRegReg ..

@[simp] theorem touches_andRegReg (dst src : Reg) : (andRegReg dst src).touches env c = [] := touches_binopRegReg ..

@[simp] theorem touches_xorRegReg (dst src : Reg) : (xorRegReg dst src).touches env c = [] := touches_binopRegReg ..

@[simp] theorem touches_cmpRegReg (dst src : Reg) : (cmpRegReg dst src).touches env c = [] := touches_binopRegReg ..

@[simp] theorem touches_addRegImm (dst : Reg) (imm : Int) : (addRegImm dst imm).touches env c = [] := touches_binopRegImm ..

@[simp] theorem touches_shlRegImm8 (dst : Reg) (imm : Int) : (shlRegImm8 dst imm).touches env c = [] := touches_shiftRegImm8 ..

@[simp] theorem touches_movRegMem (dst base : Reg) (disp : Int) :
    (movRegMem dst base disp none 1).touches env c = [(c.reg base + BitVec.ofInt 64 disp, 8)] := touches_load ..

@[simp] theorem touches_movMemReg (base : Reg) (disp : Int) (src : Reg) :
    (movMemReg base disp src none 1).touches env c = [(c.reg base + BitVec.ofInt 64 disp, 8)] := touches_store ..

@[simp] theorem touches_mov32RegMem (dst base : Reg) (disp : Int) :
    (mov32RegMem dst base disp none 1).touches env c = [(c.reg base + BitVec.ofInt 64 disp, 4)] := touches_load ..

@[simp] theorem touches_mov32MemReg (base : Reg) (disp : Int) (src : Reg) :
    (mov32MemReg base disp src none 1).touches env c = [(c.reg base + BitVec.ofInt 64 disp, 4)] := touches_store ..

/-- Words that are pushed lie just below the stack pointer. -/
theorem pushes_covered {region : Set Word} {rs : List Reg} (fits : 8 * rs.length ≤ 2 ^ 64)
    (window : range (c.reg .rsp - BitVec.ofNat 64 (8 * rs.length)) (8 * rs.length) ⊆ region) :
    Covered region (touches env address (rs.map .pushReg) c) := by
  induction rs generalizing c with
  | nil => exact covered_nil
  | cons r rs ih =>
    simp only [List.length_cons] at fits window
    rw [List.map_cons, touches_cons, touches_pushReg, effect_pushReg, after_some, List.singleton_append, covered_cons]
    refine ⟨fun x inside => window ?_, ih _ (by omega) fun x inside => window ?_⟩
    · simp only [mem_range] at inside ⊢
      bv_omega
    · simp only [mem_range, X64.Cpu.push_reg, if_true] at inside ⊢
      bv_omega

theorem pops_covered {region : Set Word} {rs : List Reg} (notSp : .rsp ∉ rs) (fits : 8 * rs.length ≤ 2 ^ 64)
    (window : range (c.reg .rsp) (8 * rs.length) ⊆ region) : Covered region (touches env address (rs.map .popReg) c) := by
  induction rs generalizing c with
  | nil => exact covered_nil
  | cons r rs ih =>
    obtain ⟨other, later⟩ := not_or.mp (mt List.mem_cons.mpr notSp)
    simp only [List.length_cons] at fits window
    rw [List.map_cons, touches_cons, touches_popReg, effect_popReg, after_some, List.singleton_append, covered_cons]
    refine ⟨fun x inside => window ?_, ih _ later (by omega) fun x inside => window ?_⟩
    · simp only [mem_range] at inside ⊢
      omega
    · simp only [mem_range, X64.Cpu.pop_snd, X64.Cpu.set_reg, other, if_false, if_true] at inside ⊢
      bv_omega

end Touches

namespace Listing

variable (L : Listing)

/-- The call that comes next touches nothing outside the region. -/
def Confined (region : Set Word) (s : Nat × Cpu) : Prop := ∀ call, L.At s.1 [call] → Covered region (call.touches L.env s.2)

/-- Confined steps from positions inside a range. -/
def Within (region : Set Word) (lo hi : Nat) : Nat × Cpu → Nat × Cpu → Prop :=
  Relation.ReflTransGen fun s t => lo ≤ s.1 ∧ s.1 < hi ∧ L.Step s t ∧ L.Confined region s

variable {L} {region : Set Word}

theorem At.unique {i : Nat} {a b : Call} (here : L.At i [a]) (here' : L.At i [b]) : a = b := by
  obtain ⟨rest, shape⟩ := here
  obtain ⟨rest', shape'⟩ := here'
  exact (List.cons.inj (shape.trans shape'.symm)).1

theorem Confined.of_touches {i : Nat} {c : Cpu} {call : Call} (here : L.At i [call])
    (covered : Covered region (call.touches L.env c)) : L.Confined region (i, c) := by
  intro other here'
  rw [← here.unique here']
  exact covered

namespace Within

variable {lo hi i j : Nat} {c d : Cpu} {s t u : Nat × Cpu}

theorem refl (s : Nat × Cpu) : L.Within region lo hi s s := Relation.ReflTransGen.refl

theorem trans (first : L.Within region lo hi s t) (second : L.Within region lo hi t u) : L.Within region lo hi s u :=
  Relation.ReflTransGen.trans first second

theorem single (lower : lo ≤ s.1) (upper : s.1 < hi) (once : L.Step s t) (confined : L.Confined region s) :
    L.Within region lo hi s t := Relation.ReflTransGen.single ⟨lower, upper, once, confined⟩

theorem mono {lo' hi' : Nat} (run : L.Within region lo hi s t) (lower : lo' ≤ lo) (upper : hi ≤ hi') :
    L.Within region lo' hi' s t :=
  Relation.ReflTransGen.mono (fun _ _ once => ⟨lower.trans once.1, once.2.1.trans_le upper, once.2.2⟩) _ _ run

theorem straight {calls : List Call} (here : L.At i calls) (ran : effects L.env L.address calls c = some d)
    (covered : Covered region (Encoder.touches L.env L.address calls c)) (lower : lo ≤ i) (upper : i + calls.length ≤ hi) :
    L.Within region lo hi (i, c) (i + calls.length, d) := by
  induction calls generalizing i c with
  | nil =>
    cases ran
    exact .refl _
  | cons call calls ih =>
    obtain ⟨first, rest⟩ := here.cons
    obtain ⟨m, head, tail⟩ := Option.bind_eq_some_iff.mp ran
    rw [touches_cons, head, after_some, covered_append] at covered
    have shift : i + (call :: calls).length = i + 1 + calls.length := by
      simp only [List.length_cons]
      omega
    rw [shift] at upper ⊢
    exact (single lower (show i < hi by omega) (.straight first head) (.of_touches first covered.1)).trans
      (ih rest tail covered.2 (by omega) upper)

/-- A call without an effect on the memory. -/
theorem plain {call : Call} (here : L.At i [call]) (plain : call.registersOnly = true) (once : L.Step (i, c) (j, d))
    (lower : lo ≤ i) (upper : i < hi) : L.Within region lo hi (i, c) (j, d) :=
  single lower upper once (.of_touches here (touches_registersOnly L.env c plain ▸ covered_nil))

theorem label {name : String} (here : L.At i [.label name]) (lower : lo ≤ i) (upper : i < hi) :
    L.Within region lo hi (i, c) (i + 1, c) := plain here rfl (.straight here (effect_label ..)) lower upper

theorem jmp {target : String} (here : L.At i [.jmp target]) (defined : L.Defines j target) (lower : lo ≤ i)
    (upper : i < hi) : L.Within region lo hi (i, c) (j, c) := plain here rfl (.jmp here defined) lower upper

theorem taken {cond target : String} {k : Cond} (here : L.At i [.jcc cond target]) (named : jumpCondition cond = some k)
    (holds : k.holds c.flags = true) (defined : L.Defines j target) (lower : lo ≤ i) (upper : i < hi) :
    L.Within region lo hi (i, c) (j, c) := plain here rfl (.taken here named holds defined) lower upper

theorem fall {cond target : String} {k : Cond} (here : L.At i [.jcc cond target]) (named : jumpCondition cond = some k)
    (fails : k.holds c.flags = false) (lower : lo ≤ i) (upper : i < hi) : L.Within region lo hi (i, c) (i + 1, c) :=
  plain here rfl (.fall here named fails) lower upper

end Within

theorem within_univ {lo hi : Nat} {s t : Nat × Cpu} : L.Within Set.univ lo hi s t ↔ L.Inside lo hi s t := by
  have all (s : Nat × Cpu) : L.Confined Set.univ s := fun _ _ _ _ _ _ => trivial
  constructor
  · exact fun run => Relation.ReflTransGen.mono (fun _ _ once => ⟨once.1, once.2.1, once.2.2.1⟩) _ _ run
  · exact fun run => Relation.ReflTransGen.mono (fun s _ once => ⟨once.1, once.2.1, once.2.2, all s⟩) _ _ run

/-! ### Rules -/

/-- Entered in `c`, the code is left at its end in a state that `Q` holds of, and touches nothing outside the region on its
way. -/
def Confines (L : Listing) (region : Set Word) (calls : List Call) (c : Cpu) (Q : Cpu → Prop) : Prop :=
  ∀ i, L.At i calls → ∃ d, L.Within region i (i + calls.length) (i, c) (i + calls.length, d) ∧ Q d

namespace Confines

variable {calls : List Call} {c : Cpu} {P Q : Cpu → Prop}

theorem mono (confines : L.Confines region calls c P) (weaker : ∀ d, P d → Q d) : L.Confines region calls c Q := by
  intro i here
  obtain ⟨d, run, p⟩ := confines i here
  exact ⟨d, run, weaker d p⟩

theorem straight {d : Cpu} (ran : effects L.env L.address calls c = some d)
    (covered : Covered region (touches L.env L.address calls c)) (q : Q d) : L.Confines region calls c Q :=
  fun i here => ⟨d, .straight here ran covered (Nat.le_refl i) (Nat.le_refl _), q⟩

theorem append {as bs : List Call} (first : L.Confines region as c P) (second : ∀ m, P m → L.Confines region bs m Q) :
    L.Confines region (as ++ bs) c Q := by
  intro i here
  obtain ⟨front, rest⟩ := here.append as
  obtain ⟨m, run, p⟩ := first i front
  obtain ⟨d, more, q⟩ := second m p _ rest
  rw [List.length_append, ← Nat.add_assoc]
  exact ⟨d, (run.mono (Nat.le_refl i) (by omega)).trans (more.mono (by omega) (Nat.le_refl _)), q⟩

theorem either {cond yes done : String} {k : Cond} (named : jumpCondition cond = some k) {first other : List Call}
    (fails : k.holds c.flags = false → L.Confines region first c Q)
    (holds : k.holds c.flags = true → L.Confines region other c Q) :
    L.Confines region (either cond yes done first other) c Q := by
  intro i here
  have length : (Encoder.either cond yes done first other).length = first.length + other.length + 4 := by
    simp [Encoder.either]
    omega
  obtain ⟨front, last⟩ := here.append _
  obtain ⟨front, others⟩ := front.append _
  obtain ⟨front, middle⟩ := front.append _
  obtain ⟨jump, firsts⟩ := front.append _
  obtain ⟨leave, target⟩ := middle.cons
  simp only [List.length_append, List.length_cons, List.length_nil] at last others middle firsts leave target
  rw [length]
  have ending : i + (0 + 1 + first.length + (0 + 1 + 1) + other.length) + 1 = i + (first.length + other.length + 4) := by
    omega
  have close (d : Cpu) : L.Within region i (i + (first.length + other.length + 4))
      (i + (0 + 1 + first.length + (0 + 1 + 1) + other.length), d) (i + (first.length + other.length + 4), d) := by
    rw [← ending]
    exact .label last (by omega) (by omega)
  cases decided : k.holds c.flags with
  | false =>
    obtain ⟨d, run, q⟩ := fails decided _ firsts
    refine ⟨d, ?_, q⟩
    refine (Within.fall jump named decided (Nat.le_refl i) (by omega)).trans ?_
    refine (run.mono (by omega) (by omega)).trans ?_
    rw [show i + (0 + 1) + first.length = i + (0 + 1 + first.length) by omega]
    exact (Within.jmp leave last (by omega) (by omega)).trans (close d)
  | true =>
    obtain ⟨d, run, q⟩ := holds decided _ others
    refine ⟨d, ?_, q⟩
    refine (Within.taken jump named decided target (Nat.le_refl i) (by omega)).trans ?_
    refine (Within.label target (by omega) (by omega)).trans ?_
    rw [show i + (0 + 1 + first.length) + 1 + 1 = i + (0 + 1 + first.length + (0 + 1 + 1)) by omega]
    refine (run.mono (by omega) (by omega)).trans ?_
    rw [show i + (0 + 1 + first.length + (0 + 1 + 1)) + other.length =
      i + (0 + 1 + first.length + (0 + 1 + 1) + other.length) by omega]
    exact close d

/-- The words on the stack lie in the region, around code that leaves them and the stack pointer alone. -/
theorem saving {rs : List Reg} {body : List Call} (distinct : rs.Nodup) (notSp : .rsp ∉ rs) (fits : 8 * rs.length ≤ 2 ^ 64)
    (window : range (c.reg .rsp - BitVec.ofNat 64 (8 * rs.length)) (8 * rs.length) ⊆ region)
    (inner : ∀ m, Saved rs c m → L.Confines region body m fun k => k.reg .rsp = m.reg .rsp ∧
      SameOn (m.reg .rsp) (8 * rs.length) m.mem k.mem ∧ ∀ d, Back rs c k d → Q d) :
    L.Confines region (saving rs body) c Q := by
  obtain ⟨m, ran, saved⟩ := @save_effects L.env L.address rs notSp fits c
  have first : L.Confines region (rs.map .pushReg ++ body) c fun k => k.reg .rsp = m.reg .rsp ∧
      SameOn (m.reg .rsp) (8 * rs.length) m.mem k.mem ∧ ∀ d, Back rs c k d → Q d :=
    append (straight ran (pushes_covered _ _ c fits window) rfl) fun _ same => same ▸ inner m saved
  refine first.append fun k inside => ?_
  obtain ⟨sp, kept, back⟩ := inside
  obtain ⟨d, ran, restored⟩ := @Saved.restore L.env L.address _ _ _ k saved distinct notSp fits sp kept
  refine .straight ran (pops_covered _ _ k (by simpa using notSp) (by simpa using fits) ?_) (back d restored)
  rw [sp, saved.sp, List.length_reverse]
  exact window

end Confines

/-! ### The machine -/

theorem Loaded.performWithin {M : Machine} (loaded : L.Loaded M) {i : Nat} {c : Cpu} {call : Call} {k : Instr} {t : X64.State}
    (here : L.At i [call]) (modelled : call.Modelled) (instrs : call.instrs (L.disp i call) = [k])
    (performed : M.perform k (L.offset (i + 1)) c = some t) (covered : Covered region (k.touches c)) :
    M.Within region (L.offset i) (L.offset (i + 1)) ⟨L.offset i, c⟩ t := by
  have ending := loaded.length here
  rw [← ending] at performed ⊢
  exact Machine.within_of_perform (instrs ▸ loaded.spells here modelled) (loaded.codeAt here) performed covered

/-- One confined step of the listing is a confined run of the machine inside the call. -/
theorem Loaded.stepWithin {M : Machine} (loaded : L.Loaded M) {i j : Nat} {c d : Cpu} (step : L.Step (i, c) (j, d))
    (confined : L.Confined region (i, c)) :
    M.Within region (L.offset i) (L.offset (i + 1)) ⟨L.offset i, c⟩ ⟨L.offset j, d⟩ := by
  obtain ⟨call, here, modelled, ⟨k, instrs, performed⟩ | ⟨rfl, noLabel, ran⟩⟩ := loaded.step_cases step
  · have covered := confined call here
    rw [← touches_disp L.env c call (L.disp i call), instrs, touchesAll, covered_append] at covered
    exact loaded.performWithin here modelled instrs performed covered.1
  · have covered : Covered region (touchesAll M.env (call.instrs 0) c) := loaded.env ▸ confined call here
    have run := Machine.within_of_spells (loaded.spellsAll here modelled noLabel) (loaded.codeAt here) ran covered
    rwa [loaded.length here] at run

theorem Loaded.within {M : Machine} (loaded : L.Loaded M) {lo hi : Nat} {s t : Nat × Cpu} (run : L.Within region lo hi s t) :
    M.Within region (L.offset lo) (L.offset hi) ⟨L.offset s.1, s.2⟩ ⟨L.offset t.1, t.2⟩ := by
  induction run with
  | refl => exact .refl _
  | tail _ once ih =>
    obtain ⟨lower, upper, once, confined⟩ := once
    exact ih.trans ((loaded.stepWithin once confined).mono (offset_le lower) (offset_le (by omega)))

/-- Code that is confined is left at its end, and the machine touches nothing outside the region on its way. -/
theorem Confines.executes {M : Machine} (loaded : L.Loaded M) {calls : List Call} {c : Cpu} {Q : Cpu → Prop}
    (confines : L.Confines region calls c Q) {i : Nat} (here : L.At i calls) :
    ∃ d, M.Completes (L.offset i) (L.offset (i + calls.length)) c d ∧ Q d ∧
      M.Stays region (L.offset i) (L.offset (i + calls.length)) c := by
  obtain ⟨d, run, q⟩ := confines i here
  have run := loaded.within run
  exact ⟨d, run.inside, q, fun s reached inside => run.confined (Nat.le_refl _) reached inside⟩

end Listing

end Aclm.Encoder
