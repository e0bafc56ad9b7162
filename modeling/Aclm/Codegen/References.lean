import Aclm.Codegen.Generate

/-! What an emission refers to and what it provides: labels of its own, cells that it reserves, and what is left for
others to define. -/

set_option autoImplicit false

namespace Aclm.Codegen

open X64 (Reg)
open Encoder

/-- The cells of the generator that an emitter may refer to without reserving them. -/
def SHARED : List String := ["__timespec", "__thr_futex", "__kheap_ptr", "__dmaring"]

/-- The labels of a piece of code that is emitted once. -/
def Stub.names : Stub → List String
  | idtHandler => ["__isr_default", "__idt_after_handler"]
  | irq0 => ["__irq0_stub", "__after_irq0"]
  | pf => ["__pf_stub", "__after_pf"]
  | sysentry => ["__syscall_entry", "__after_sysentry"]
  | irq0Full => ["__irq0_full", "__after_irq0_full"]
  | nosys => ["__nosys", "__after_nosys"]
  | sysdispatch => ["__syscall_dispatch", "__after_sysdispatch"]
  | nmi => ["__nmi_stub", "__after_nmi"]

/-- The names that the calls refer to, each allowed by `K`. -/
def Within (K : String → Prop) : List Call → Prop
  | [] => True
  | .jmp target :: calls | .jcc _ target :: calls | .call target :: calls | .leaRegLabel _ target :: calls =>
    K target ∧ Within K calls
  | _ :: calls => Within K calls

section Within

variable {K : String → Prop}

theorem Within.target {calls : List Call} (all : Within K calls) {c : Call} {target : String} (member : c ∈ calls)
    (refers : c.fixup = some target) : K target := by
  induction calls with
  | nil => cases member
  | cons d calls ih =>
    cases member with
    | head => cases c <;> simp only [Call.fixup, Option.some.injEq, reduceCtorEq] at refers <;> exact refers ▸ all.1
    | tail _ member => cases d <;> first | exact ih all.2 member | exact ih all member

theorem Within.mono {calls : List Call} {K' : String → Prop} (all : Within K calls) (more : ∀ t, K t → K' t) :
    Within K' calls := by
  induction calls with
  | nil => trivial
  | cons c calls ih => cases c <;> first | exact ⟨more _ all.1, ih all.2⟩ | exact ih all

theorem Within.append {as bs : List Call} (first : Within K as) (rest : Within K bs) : Within K (as ++ bs) := by
  induction as with
  | nil => exact rest
  | cons c as ih => cases c <;> first | exact ⟨first.1, ih first.2⟩ | exact ih first

theorem copyTo_within (dst src : Reg) : Within K (copyTo dst src) := by
  unfold copyTo
  split <;> trivial

theorem map_pop_within (rs : List Reg) : Within K (rs.map .popReg) := by
  induction rs with
  | nil => trivial
  | cons r rs ih => exact ih

theorem map_push_within (rs : List Reg) : Within K (rs.map .pushReg) := by
  induction rs with
  | nil => trivial
  | cons r rs ih => exact ih

theorem ite_within {p : Prop} [Decidable p] {as bs : List Call} (yes : Within K as) (no : Within K bs) :
    Within K (if p then as else bs) := by
  split <;> assumption

end Within

/-- A name that the generator has defined so far. -/
def Here (g : CodeGenerator) (target : String) : Prop :=
  .label target ∈ g.script ∨ ∃ name, g.dataLayout.contains name = true ∧ target = data name

/-- What is emitted once has its labels. -/
def Stubs (g : CodeGenerator) : Prop := ∀ stub ∈ g.emitted, ∀ name ∈ stub.names, .label name ∈ g.script

/-- What an emission has done: it refers to nothing but what is defined now or allowed by `K`, it has defined the labels
`L` and reserved the cells `G`, and these alone of those that are shared. -/
structure Made (K : String → Prop) (L G : List String) (g g' : CodeGenerator) : Prop where
  script : ∃ calls, g'.script = g.script ++ calls ∧
    ∀ c ∈ calls, ∀ target, c.fixup = some target → K target ∨ Here g' target
  labels : ∀ name ∈ L, .label name ∈ g'.script
  kept : ∀ name, g.dataLayout.contains name = true → g'.dataLayout.contains name = true
  cells : ∀ name ∈ G, g'.dataLayout.contains name = true
  shared : ∀ name ∈ SHARED, g'.dataLayout.contains name = true → g.dataLayout.contains name = true ∨ name ∈ G
  stubs : Stubs g'

namespace Made

variable {K : String → Prop} {L L' G G' : List String} {g g' g'' : CodeGenerator}

theorem label_kept (made : Made K L G g g') {name : String} (there : .label name ∈ g.script) : .label name ∈ g'.script := by
  obtain ⟨calls, script, -⟩ := made.script
  rw [script]
  exact List.mem_append_left _ there

theorem here_kept (made : Made K L G g g') {target : String} (here : Here g target) : Here g' target := by
  rcases here with label | ⟨name, placed, rfl⟩
  · exact .inl (made.label_kept label)
  · exact .inr ⟨name, made.kept name placed, rfl⟩

theorem trans (first : Made K L G g g') (second : Made K L' G' g' g'') : Made K (L ++ L') (G ++ G') g g'' := by
  obtain ⟨as, script, refers⟩ := first.script
  obtain ⟨bs, script', refers'⟩ := second.script
  refine ⟨⟨as ++ bs, by rw [script', script, List.append_assoc], ?_⟩, ?_, ?_, ?_, ?_, second.stubs⟩
  · intro c member target is
    rcases List.mem_append.mp member with member | member
    · exact (refers c member target is).imp_right second.here_kept
    · exact refers' c member target is
  · intro name member
    rcases List.mem_append.mp member with member | member
    · exact second.label_kept (first.labels name member)
    · exact second.labels name member
  · exact fun name placed => second.kept name (first.kept name placed)
  · intro name member
    rcases List.mem_append.mp member with member | member
    · exact second.kept name (first.cells name member)
    · exact second.cells name member
  · intro name member placed
    rcases second.shared name member placed with placed | given
    · exact (first.shared name member placed).imp_right (List.mem_append_left _)
    · exact .inr (List.mem_append_right _ given)

/-- The parts that are looked at have not changed. -/
theorem same (stubs : Stubs g) (script : g'.script = g.script) (layout : g'.dataLayout = g.dataLayout)
    (emitted : g'.emitted = g.emitted) : Made K [] [] g g' := by
  refine ⟨⟨[], by simp [script], by simp⟩, by simp, fun name placed => ?_, by simp, fun name _ placed => .inl ?_, ?_⟩
  · rwa [layout]
  · rwa [layout] at placed
  · intro stub member name known
    rw [script]
    rw [emitted] at member
    exact stubs stub member name known

theorem mono (made : Made K L G g g') {K' : String → Prop} (more : ∀ t, K t → K' t ∨ Here g' t) : Made K' L G g g' := by
  obtain ⟨calls, script, refers⟩ := made.script
  refine ⟨⟨calls, script, fun c member target is => ?_⟩, made.labels, made.kept, made.cells, made.shared, made.stubs⟩
  rcases refers c member target is with allowed | here
  · exact more target allowed
  · exact .inr here

theorem fewer (made : Made K L G g g') {L' : List String} (sub : ∀ name ∈ L', .label name ∈ g'.script) :
    Made K L' G g g' := { made with labels := sub }

end Made

/-- An address that an operand stands for is that of a datum. -/
theorem operand_address {g : CodeGenerator} {node : Expr} {label : String} (found : g.operand node = .ok (.address label)) :
    ∃ name, g.dataLayout.contains name = true ∧ label = data name := by
  cases node with
  | number value => cases found
  | reg name =>
    simp only [CodeGenerator.operand] at found
    cases known : resolve name <;> rw [known] at found <;> cases found
  | ident name =>
    simp only [CodeGenerator.operand, CodeGenerator.identOperand] at found
    split at found
    · cases found
    split at found
    · cases found
    split at found
    · cases found
    split at found
    · next placed =>
      cases found
      exact ⟨name, placed, rfl⟩
    · split at found <;> cases found
  | structFieldRef struct field =>
    simp only [CodeGenerator.operand, CodeGenerator.fieldOperand] at found
    split at found
    · cases found
    · split at found <;> cases found
  | _ => cases found

/-- A step of an emission, by what it refers to and what it provides. -/
def Refers {α : Type} (K : String → Prop) (L G : List String) (m : Gen α) : Prop :=
  ∀ g a g', Stubs g → m g = .ok a g' → Made K L G g g'

namespace Refers

variable {α β : Type} {K : String → Prop} {L G : List String}

theorem keep {m : Gen α} (same : ∀ g a g', m g = .ok a g' → g' = g) : Refers K [] [] m := by
  intro g a g' stubs ok
  obtain rfl := same g a g' ok
  exact .same stubs rfl rfl rfl

theorem pure (a : α) : Refers K [] [] (pure a) := keep fun _ _ _ ok => (pure_ok.mp ok).2

theorem get : Refers K [] [] get := keep fun _ _ _ ok => (get_ok.mp ok).2

theorem ofExcept (x : Except PyErr α) : Refers K [] [] (ofExcept x) := keep fun _ _ _ ok => (ofExcept_ok.mp ok).2

theorem reg (name : String) : Refers K [] [] (reg name) := ofExcept _

theorem throw (e : PyErr) : Refers K L G (throw e : Gen α) := fun _ _ _ _ ok => (throw_ok ok).elim

theorem codegenError (msg : String) : Refers K L G (codegenError msg : Gen α) := throw _

theorem modify {f : CodeGenerator → CodeGenerator} (script : ∀ g, (f g).script = g.script)
    (layout : ∀ g, (f g).dataLayout = g.dataLayout) (emitted : ∀ g, (f g).emitted = g.emitted) :
    Refers K [] [] (modify f) := fun g _ _ stubs ok => modify_ok.mp ok ▸ .same stubs (script g) (layout g) (emitted g)

/-- A step that defines nothing, and the steps after it. -/
theorem bind {x : Gen α} {f : α → Gen β} (first : Refers K [] [] x) (rest : ∀ a, Refers K L G (f a)) :
    Refers K L G (x >>= f) := by
  intro g b g' stubs ok
  obtain ⟨a, m, ok₁, ok₂⟩ := bind_ok.mp ok
  have made := first _ _ _ stubs ok₁
  exact made.trans (rest _ _ _ _ made.stubs ok₂)

theorem seq {x : Gen Unit} {y : Gen β} (first : Refers K [] [] x) (rest : Refers K L G y) : Refers K L G (do x; y) :=
  first.bind fun _ => rest

/-- Both steps may define labels. -/
theorem both {x : Gen Unit} {y : Gen β} (here later : List String) (first : Refers K here [] x)
    (rest : Refers K later G y) (sub : ∀ name ∈ L, name ∈ here ++ later) : Refers K L G (do x; y) := by
  intro g b g' stubs ok
  obtain ⟨a, m, ok₁, ok₂⟩ := bind_ok.mp ok
  have made := first _ _ _ stubs ok₁
  have whole := made.trans (rest _ _ _ made.stubs ok₂)
  exact whole.fewer fun name member => whole.labels name (sub name member)

theorem calls {calls : List Call} (within : Within K calls) (defines : ∀ name ∈ L, .label name ∈ calls) :
    Refers K L [] (asm calls) := by
  intro g a g' stubs ok
  obtain rfl := asm_ok.mp ok
  refine ⟨⟨calls, rfl, fun c member target is => .inl (within.target member is)⟩, ?_, fun _ placed => placed, by simp,
    fun _ _ placed => .inl placed, ?_⟩
  · exact fun name member => List.mem_append_right _ (defines name member)
  · exact fun stub member name known => List.mem_append_left _ (stubs stub member name known)

theorem mono {m : Gen α} {K' : String → Prop} (refers : Refers K L G m) (more : ∀ t, K t → K' t) : Refers K' L G m :=
  fun _ _ _ stubs ok => (refers _ _ _ stubs ok).mono fun t allowed => .inl (more t allowed)

/-- Both steps may reserve cells. -/
theorem append {x : Gen Unit} {y : Gen β} {G' : List String} (first : Refers K [] G x) (rest : Refers K L G' y) :
    Refers K L (G ++ G') (do x; y) := by
  intro g b g' stubs ok
  obtain ⟨a, m, ok₁, ok₂⟩ := bind_ok.mp ok
  have made := first _ _ _ stubs ok₁
  exact made.trans (rest _ _ _ made.stubs ok₂)

/-- Code without labels of its own. -/
theorem plain {calls : List Call} (within : Within K calls) : Refers K [] [] (asm calls) := .calls within (by simp)

theorem ite {p : Prop} [Decidable p] {x y : Gen α} (yes : Refers K L G x) (no : Refers K L G y) :
    Refers K L G (if p then x else y) := by
  split <;> assumption

/-- What follows a new label may refer to it, and has to define it. -/
theorem withLabel {pfx : String} {f : String → Gen β}
    (rest : ∀ name, Refers (fun t => t = name ∨ K t) (name :: L) G (f name)) : Refers K L G (newLabel pfx >>= f) := by
  intro g b g' stubs ok
  have ok := newLabel_bind_ok.mp ok
  have made := rest _ _ _ _ (show Stubs g.nextLabel from stubs) ok
  have closed : Made K _ G g.nextLabel g' := made.mono fun t allowed =>
    allowed.elim (fun is => .inr (.inl (is ▸ made.labels _ List.mem_cons_self))) .inl
  exact { closed with
    labels := fun name member => closed.labels name (List.mem_cons_of_mem _ member) }

/-! ### Cells and stubs -/

theorem made_reserved {g : CodeGenerator} (stubs : Stubs g) (name : String) (bytes : List X64.Byte) :
    (reserved g name bytes).dataLayout.contains name = true ∧
      Made K [] (if name ∈ SHARED then [name] else []) g (reserved g name bytes) := by
  have placed : (reserved g name bytes).dataLayout.contains name = true := by
    unfold reserved
    split
    · assumption
    · simp [Dict.contains, Dict.get?_set]
  have others (other : String) : (reserved g name bytes).dataLayout.contains other = true →
      g.dataLayout.contains other = true ∨ other = name := by
    unfold reserved
    split
    · exact .inl
    · by_cases same : name = other
      · exact fun _ => .inr same.symm
      · simp only [Dict.contains, Dict.get?_set, if_neg same]
        exact .inl
  refine ⟨placed, ⟨[], by simp, by simp⟩, by simp, fun other known => ?_, fun other member => ?_,
    fun other member known => ?_, fun stub member label defined => ?_⟩
  · obtain ⟨off, found⟩ := Option.isSome_iff_exists.mp known
    exact Option.isSome_iff_exists.mpr ⟨off, reserved_get? bytes found⟩
  · split at member
    · rwa [List.mem_singleton.mp member]
    · cases member
  · refine (others other known).imp_right fun same => ?_
    subst same
    rw [if_pos member]
    exact List.mem_singleton.mpr rfl
  · have old : (reserved g name bytes).emitted = g.emitted := by
      unfold reserved
      split <;> rfl
    rw [reserved_script]
    exact stubs stub (old ▸ member) label defined

theorem reserve {y : Gen β} (name : String) (bytes : List X64.Byte)
    (rest : Refers (fun t => t = data name ∨ K t) L G y) :
    Refers K L ((if name ∈ SHARED then [name] else []) ++ G) (do reserve name bytes; y) := by
  intro g b g' stubs ok
  obtain ⟨placed, made⟩ := made_reserved (K := K) stubs name bytes
  have later := rest _ _ _ made.stubs (reserve_bind_ok.mp ok)
  have closed : Made K L G _ g' := later.mono fun t allowed =>
    allowed.elim (fun is => .inr (.inr ⟨name, later.kept name placed, is⟩)) .inl
  exact made.trans closed

/-- What follows the reservation of a cell may refer to it. -/
theorem cell {y : Gen β} (name : String) {bytes : List X64.Byte} (own : name ∉ SHARED)
    (rest : Refers (fun t => t = data name ∨ K t) L G y) : Refers K L G (do Codegen.reserve name bytes; y) := by
  have made := reserve name bytes rest
  rwa [if_neg own] at made

theorem sharedCell {y : Gen β} (name : String) {bytes : List X64.Byte} (shared : name ∈ SHARED)
    (rest : Refers (fun t => t = data name ∨ K t) L G y) :
    Refers K L (name :: G) (do Codegen.reserve name bytes; y) := by
  have made := reserve name bytes rest
  rwa [if_pos shared] at made

/-- What follows the code of a stub may refer to its labels. -/
theorem once {y : Gen β} (stub : Stub) {calls : List Call} (within : Within (fun t => t ∈ stub.names ∨ K t) calls)
    (defines : ∀ name ∈ stub.names, .label name ∈ calls) (rest : Refers (fun t => t ∈ stub.names ∨ K t) L G y) :
    Refers K L G (do once stub calls; y) := by
  intro g b g' stubs ok
  have ok := once_bind_ok.mp ok
  have names : ∀ name ∈ stub.names, .label name ∈ (onced g stub calls).script := by
    intro name member
    unfold onced
    split
    · next done => exact stubs stub done name member
    · exact List.mem_append_right _ (defines name member)
  have made : Made (fun t => t ∈ stub.names ∨ K t) [] [] g (onced g stub calls) := by
    by_cases done : stub ∈ g.emitted
    · rw [onced, if_pos done]
      exact .same stubs rfl rfl rfl
    · rw [onced, if_neg done]
      refine ⟨⟨calls, rfl, fun c member target is => .inl (within.target member is)⟩, by simp, fun _ placed => placed,
        by simp, fun _ _ placed => .inl placed, fun other member name known => ?_⟩
      rcases List.mem_cons.mp member with rfl | member
      · exact List.mem_append_right _ (defines name known)
      · exact List.mem_append_left _ (stubs other member name known)
  have whole := made.trans (rest _ _ _ made.stubs ok)
  refine whole.mono fun t allowed => allowed.elim (fun member => .inr (.inl ?_)) .inl
  exact (rest _ _ _ made.stubs ok).label_kept (names t member)

/-- What is done only where a cell is there may refer to it. -/
theorem present (name : String) {x : Gen Unit} (inside : Refers (fun t => t = data name ∨ K t) [] [] x) :
    Refers K [] [] (do if (← MonadState.get).dataLayout.contains name then x) := by
  intro g a g' stubs ok
  have ok := get_bind_ok.mp ok
  split at ok
  · next placed =>
    have made := inside _ _ _ stubs ok
    exact made.mono fun t allowed => allowed.elim (fun is => .inr (.inr ⟨name, made.kept name placed, is⟩)) .inl
  · obtain ⟨-, rfl⟩ := pure_ok.mp ok
    exact .same stubs rfl rfl rfl

/-! ### Operands -/

theorem evalCalls_within {g : CodeGenerator} {node : Expr} {dst : Reg} {calls : List Call}
    (ok : evalCalls g node dst = .ok calls) :
    Within (fun t => ∃ name, g.dataLayout.contains name = true ∧ t = data name) calls := by
  have leaf {node : Expr} {dst : Reg} {calls : List Call} (ok : (g.operand node).map (Operand.mov dst) = .ok calls) :
      Within (fun t => ∃ name, g.dataLayout.contains name = true ∧ t = data name) calls := by
    cases found : g.operand node with
    | error e => rw [found] at ok; cases ok
    | ok operand =>
      rw [found] at ok
      cases ok
      cases operand with
      | imm value => trivial
      | slot off => trivial
      | reg r => exact copyTo_within dst r
      | address label => exact ⟨operand_address found, trivial⟩
  induction node generalizing dst calls with
  | binExpr op left right ihl ihr =>
    obtain ⟨l, left, rest⟩ := bind_eq_ok.mp ok
    obtain ⟨r, right, rest⟩ := bind_eq_ok.mp rest
    cases rest
    have ends : Within (fun t => ∃ name, g.dataLayout.contains name = true ∧ t = data name) [.popReg .r11, combine op] := by
      cases op <;> trivial
    have push : Within (fun t => ∃ name, g.dataLayout.contains name = true ∧ t = data name) [.pushReg .r11] := trivial
    exact ((((ihl left).append push).append (ihr right)).append ends).append (copyTo_within _ _)
  | _ => exact leaf ok

theorem eval (node : Expr) (dst : Reg) : Refers K [] [] (eval node dst) := by
  intro g a g' stubs ok
  obtain ⟨calls, evaluated, rfl⟩ := eval_ok.mp ok
  have within := evalCalls_within evaluated
  refine ⟨⟨calls, rfl, fun c member target is => .inr (.inr (within.target member is))⟩, by simp, fun _ placed => placed,
    by simp, fun _ _ placed => .inl placed, ?_⟩
  exact fun stub member name known => List.mem_append_left _ (stubs stub member name known)

theorem evalOr (node : Option Expr) (dst : Reg) {default : List Call} (within : Within K default) :
    Refers K [] [] (evalOr node dst default) := by
  cases node with
  | none => exact plain within
  | some node => exact eval node dst

theorem baseReg (base : Expr) (allowed : ∀ name, base = .ident name → K (data name)) : Refers K [] [] (baseReg base) := by
  cases base with
  | reg name => exact reg name
  | ident name =>
    refine bind get fun g => ?_
    split
    · exact seq (plain trivial) (pure _)
    · exact seq (plain ⟨allowed name rfl, trivial⟩) (pure _)
  | _ => exact throw _

theorem basePhys (base : Expr) (allowed : ∀ name, base = .ident name → K (data name)) :
    Refers K [] [] (basePhys base) := by
  cases base with
  | reg name => exact reg name
  | ident name => exact seq (plain ⟨allowed name rfl, trivial⟩) (pure _)
  | number value => exact seq (plain trivial) (pure _)
  | _ => exact throw _

theorem indexReg (index : Option Expr) : Refers K [] [] (indexReg index) := by
  cases index with
  | none => exact pure _
  | some node =>
    cases node with
    | reg name => exact bind (reg name) fun _ => pure _
    | _ => exact seq (eval _ _) (pure _)

theorem pushArgs (via : Reg) (args : List Expr) : Refers K [] [] (pushArgs via args) := by
  induction args with
  | nil => exact pure _
  | cons arg args ih => exact seq (eval _ _) (seq (plain trivial) ih)

end Refers

end Aclm.Codegen
