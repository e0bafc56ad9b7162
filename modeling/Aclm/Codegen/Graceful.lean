import Aclm.Codegen.Generate

/-! Exceptions: which of them the compiler reports, and steps of an emission that raise no others. -/

set_option autoImplicit false

namespace Aclm

open X64 (Reg)
open Encoder

/-- The exceptions of the generator that the compiler turns into an error of its own. -/
def PyErr.Reported : PyErr → Prop
  | codegenError _ | valueError _ => True
  | _ => False

namespace Encoder

/-! ### Calls -/

/-- The assembler finds the words of the call in its tables. -/
def Call.known : Call → Bool
  | jcc cond _ => JCC_OPCODE.contains cond
  | setccReg cond _ => SETCC_OPCODE.contains cond
  | cmovRegReg cond .. => CMOV_OPCODE.contains cond
  | load _ _ m | store _ m _ => m.index.isNone || (scaleBits m.scale).isOk
  | _ => true

/-- An exception, if there is one, that is reported. -/
structure Polite {α : Type} (x : Except PyErr α) : Prop where
  reported : ∀ e, x = .error e → e.Reported

namespace Polite

variable {α β : Type}

theorem ok (a : α) : Polite (.ok a) := ⟨fun _ raised => nomatch raised⟩

theorem error {e : PyErr} (reported : e.Reported) : Polite (.error e : Except PyErr α) := by
  refine ⟨?_⟩
  rintro _ ⟨⟩
  exact reported

theorem bind {x : Except PyErr α} {f : α → Except PyErr β} (first : Polite x) (rest : ∀ a, Polite (f a)) :
    Polite (x >>= f) := by
  cases x with
  | error e => exact error (first.reported e rfl)
  | ok a => exact rest a

theorem map {x : Except PyErr α} (f : α → β) (polite : Polite x) : Polite (x.map f) := by
  cases x with
  | error e => exact error (polite.reported e rfl)
  | ok a => exact ok _

theorem resolve (name : String) : Polite (resolve name) := by
  have unknown {msg : String} : Polite (.error (.valueError msg) : Except PyErr Reg) := error trivial
  unfold Aclm.resolve
  dsimp only
  repeat' split
  all_goals first | exact ok _ | exact unknown

theorem s8 (v : Int) : Polite (s8 v) := by
  unfold Encoder.s8
  split
  · exact error trivial
  · exact ok _

theorem s32 (v : Int) : Polite (s32 v) := by
  unfold Encoder.s32
  split
  · exact error trivial
  · exact ok _

theorem index {d : Dict α} {key : String} (known : d.contains key = true) : Polite (index d key) := by
  obtain ⟨v, found⟩ := Option.isSome_iff_exists.mp known
  rw [Encoder.index, found]
  exact ok v

theorem memOperand (field : Nat) {m : Mem} (known : (m.index.isNone || (scaleBits m.scale).isOk) = true) :
    Polite (memOperand field m) := by
  have sib : Polite (memSib m) := by
    unfold memSib
    split
    · next r is =>
      rw [is] at known
      obtain ⟨s, scaled⟩ := exists_of_isOk known
      rw [scaled]
      exact ok _
    · exact ok _
  refine bind sib fun (x, sib) => bind ?_ fun _ => ok _
  unfold memDisp
  split
  · exact s32 _
  · exact ok _

theorem encode (det : Bool) {c : Call} (known : c.known = true) : Polite (c.encode det) := by
  cases c with
  | load size dst m => cases size <;> exact bind (memOperand _ known) fun _ => ok _
  | store size m src => cases size <;> exact bind (memOperand _ known) fun _ => ok _
  | binopRegImm op dst imm => exact bind (s32 imm) fun _ => ok _
  | setccReg cond dst => exact bind (index known) fun _ => ok _
  | jcc cond target => exact bind (index known) fun _ => ok _
  | cmovRegReg cond dst src => exact bind (index known) fun _ => ok _
  | _ => exact ok _

theorem perform (a : Assembler) {c : Call} (known : c.known = true) : Polite (a.perform c) := by
  by_cases isLabel : ∃ name, c = .label name
  · obtain ⟨name, rfl⟩ := isLabel
    simp only [Assembler.perform, Assembler.label]
    split
    · exact error trivial
    · exact ok _
  · rw [Assembler.perform_eq fun name same => isLabel ⟨name, same⟩]
    refine bind (encode _ known) fun _ => ?_
    split <;> exact ok _

/-- Calls whose words are known raise nothing that is not reported. -/
theorem run {calls : List Call} (known : calls.all Call.known = true) (a : Assembler) : Polite (a.run calls) := by
  induction calls generalizing a with
  | nil => exact ok a
  | cons c calls ih =>
    obtain ⟨here, later⟩ := Bool.and_eq_true_iff.mp known
    exact bind (perform a here) fun b => ih later b

end Polite

/-- A word that the tables do not have. -/
theorem unknown_encode (det : Bool) {c : Call} (unknown : c.known = false) : ∃ key, c.encode det = .error (.keyError key) := by
  have missing {d : Dict X64.Byte} {key : String} (absent : d.contains key = false) : index d key = .error (.keyError key) := by
    rw [index, Option.isNone_iff_eq_none.mp (Option.isSome_eq_false_iff.mp absent)]
  have unscaled (field : Nat) {m : Mem} (absent : (m.index.isNone || (scaleBits m.scale).isOk) = false) :
      ∃ key, memOperand field m = .error (.keyError key) := by
    obtain ⟨present, bad⟩ := Bool.or_eq_false_iff.mp absent
    obtain ⟨r, is⟩ := Option.isSome_iff_exists.mp (Option.isNone_eq_false_iff.mp present)
    refine ⟨toString m.scale, ?_⟩
    have scale : scaleBits m.scale = .error (.keyError (toString m.scale)) := by
      unfold scaleBits at bad ⊢
      split_ifs at bad ⊢ <;> first | rfl | cases bad
    rw [memOperand, memSib, is]
    dsimp only
    rw [scale]
    rfl
  cases c with
  | jcc cond target => exact ⟨cond, by rw [Call.encode, missing unknown]; rfl⟩
  | setccReg cond dst => exact ⟨cond, by rw [Call.encode, setccRegBytes, missing unknown]; rfl⟩
  | cmovRegReg cond dst src => exact ⟨cond, by rw [Call.encode, missing unknown]; rfl⟩
  | load size dst m =>
    obtain ⟨key, raised⟩ := unscaled (dst.num &&& 7) unknown
    refine ⟨key, ?_⟩
    cases size with
    | b32 => rw [Call.encode, mov32RegMemBytes, raised]; rfl
    | _ => rw [Call.encode, memOp, raised]; rfl
  | store size m src =>
    obtain ⟨key, raised⟩ := unscaled (src.num &&& 7) unknown
    refine ⟨key, ?_⟩
    cases size with
    | b64 => rw [Call.encode, memOp, raised]; rfl
    | _ => rw [Call.encode, memOpSized, raised]; rfl
  | _ => cases unknown

theorem unknown_perform (a : Assembler) {c : Call} (unknown : c.known = false) :
    ∃ key, a.perform c = .error (.keyError key) := by
  obtain ⟨key, raised⟩ := unknown_encode a.deterministic unknown
  have notLabel (name : String) : c ≠ .label name := by
    rintro rfl
    cases unknown
  exact ⟨key, by rw [Assembler.perform_eq notLabel, raised]; rfl⟩

end Encoder

namespace Codegen

theorem copyTo_known (dst src : Reg) : (copyTo dst src).all Call.known = true := by
  unfold copyTo
  split <;> rfl

theorem map_pop_known (rs : List Reg) : (rs.map Call.popReg).all Call.known = true := by simp [Call.known]

theorem map_push_known (rs : List Reg) : (rs.map Call.pushReg).all Call.known = true := by simp [Call.known]

theorem ite_known {p : Prop} [Decidable p] {as bs : List Call} (yes : as.all Call.known = true)
    (no : bs.all Call.known = true) : (if p then as else bs).all Call.known = true := by
  split <;> assumption

theorem mov_known (dst : Reg) (operand : Operand) : (operand.mov dst).all Call.known = true := by
  cases operand with
  | reg r => exact copyTo_known dst r
  | _ => rfl

/-! ### Operands -/

theorem operand_polite (g : CodeGenerator) (node : Expr) : Polite (g.operand node) := by
  cases node with
  | number value => exact .ok _
  | reg name =>
    have resolved : Polite ((resolve name).map Operand.reg) := .map _ (.resolve name)
    exact resolved
  | ident name =>
    simp only [CodeGenerator.operand, CodeGenerator.identOperand]
    repeat' split
    all_goals first | exact .ok _ | exact .error trivial
  | structFieldRef struct field =>
    simp only [CodeGenerator.operand, CodeGenerator.fieldOperand]
    repeat' split
    all_goals first | exact .ok _ | exact .error trivial
  | _ => exact .error trivial

theorem resolveOffset_polite (g : CodeGenerator) (node : Expr) : Polite (g.resolveOffset node) := by
  induction node with
  | number value => exact .ok _
  | binExpr op left right ihl ihr =>
    refine .bind ihl fun l => .bind ihr fun r => ?_
    cases op <;> exact .ok _
  | structFieldRef struct field =>
    simp only [CodeGenerator.resolveOffset]
    repeat' split
    all_goals first | exact .ok _ | exact .error trivial
  | _ => exact .error trivial

/-! ### Steps -/

theorem bind_apply {α β : Type} (x : Gen α) (f : α → Gen β) (g : CodeGenerator) : (x >>= f) g = match x g with
    | .ok a m => f a m
    | .error e m => .error e m := by
  change EStateM.bind x f g = _
  unfold EStateM.bind
  cases x g <;> rfl

/-- What an emission has added: calls whose words are known, provided that `q` holds. -/
structure Grown (q : Prop) (g g' : CodeGenerator) : Prop where
  deterministic : g'.deterministic = g.deterministic
  script : ∃ calls, g'.script = g.script ++ calls ∧ (q → calls.all Call.known = true)

namespace Grown

variable {q : Prop} {g g' g'' : CodeGenerator}

theorem trans (first : Grown q g g') (second : Grown q g' g'') : Grown q g g'' := by
  obtain ⟨as, script, known⟩ := first.script
  obtain ⟨bs, script', known'⟩ := second.script
  refine ⟨second.deterministic.trans first.deterministic, as ++ bs, by rw [script', script, List.append_assoc], ?_⟩
  intro given
  rw [List.all_append, known given, known' given]
  rfl

theorem same (deterministic : g'.deterministic = g.deterministic) (script : g'.script = g.script) : Grown q g g' :=
  ⟨deterministic, [], by simp [script], fun _ => rfl⟩

theorem refl (g : CodeGenerator) : Grown q g g := same rfl rfl

end Grown

/-- How a step from `g` may end: the script has grown, and an exception is one that is reported, provided that `q` holds. -/
def Ends {α : Type} (q : Prop) (g : CodeGenerator) : EStateM.Result PyErr CodeGenerator α → Prop
  | .ok _ g' => Grown q g g'
  | .error e g' => Grown q g g' ∧ (q → e.Reported)

/-- A step that, provided that `q` holds, adds only calls whose words are known and raises only what is reported. -/
structure Graceful {α : Type} (q : Prop) (m : Gen α) : Prop where
  ends : ∀ g, Ends q g (m g)

namespace Graceful

variable {α β : Type} {q : Prop}

theorem pure (a : α) : Graceful q (pure a) := ⟨fun g => Grown.refl g⟩

theorem get : Graceful q get := ⟨fun g => Grown.refl g⟩

theorem throw {e : PyErr} (reported : q → e.Reported) : Graceful q (throw e : Gen α) :=
  ⟨fun g => ⟨Grown.refl g, reported⟩⟩

theorem codegenError (msg : String) : Graceful q (codegenError msg : Gen α) := throw fun _ => trivial

theorem ofExcept {x : Except PyErr α} (polite : q → Polite x) : Graceful q (ofExcept x) := by
  cases x with
  | ok a => exact pure a
  | error e => exact throw fun given => (polite given).reported e rfl

theorem modify {f : CodeGenerator → CodeGenerator} (deterministic : ∀ g, (f g).deterministic = g.deterministic)
    (script : ∀ g, (f g).script = g.script) : Graceful q (modify f) :=
  ⟨fun g => Grown.same (deterministic g) (script g)⟩

theorem bind {x : Gen α} {f : α → Gen β} (first : Graceful q x) (rest : ∀ a, Graceful q (f a)) :
    Graceful q (x >>= f) := by
  refine ⟨fun g => ?_⟩
  have start := first.ends g
  rw [bind_apply]
  cases done : x g with
  | error e m =>
    rw [done] at start
    exact start
  | ok a m =>
    rw [done] at start
    have ending := (rest a).ends m
    cases later : f a m with
    | error e g' =>
      simp only [later] at ending ⊢
      exact ⟨start.trans ending.1, ending.2⟩
    | ok b g' =>
      simp only [later] at ending ⊢
      exact start.trans ending

theorem seq {x : Gen Unit} {y : Gen β} (first : Graceful q x) (rest : Graceful q y) : Graceful q (do x; y) :=
  bind first fun _ => rest

theorem ite {p : Prop} [Decidable p] {x y : Gen α} (yes : Graceful q x) (no : Graceful q y) :
    Graceful q (if p then x else y) := by
  split <;> assumption

theorem mono {q' : Prop} {m : Gen α} (graceful : Graceful q m) (weaker : q' → q) : Graceful q' m := by
  refine ⟨fun g => ?_⟩
  have weaken {g' : CodeGenerator} (grown : Grown q g g') : Grown q' g g' := by
    obtain ⟨det, calls, script, known⟩ := grown
    exact ⟨det, calls, script, known ∘ weaker⟩
  have ending := graceful.ends g
  cases done : m g with
  | ok a g' =>
    rw [done] at ending
    exact weaken ending
  | error e g' =>
    rw [done] at ending
    exact ⟨weaken ending.1, ending.2 ∘ weaker⟩

theorem calls {calls : List Call} (known : q → calls.all Call.known = true) : Graceful q (asm calls) :=
  ⟨fun _ => ⟨rfl, calls, rfl, known⟩⟩

/-- Code whose words the generator itself chose. -/
theorem code {calls : List Call} (known : calls.all Call.known = true) : Graceful q (asm calls) :=
  Graceful.calls fun _ => known

theorem reg (name : String) : Graceful q (reg name) := ofExcept fun _ => .resolve name

theorem newLabel (pfx : String) : Graceful q (newLabel pfx) :=
  bind (modify (fun _ => rfl) fun _ => rfl) fun _ => bind get fun _ => pure _

theorem reserve (name : String) (bytes : List X64.Byte) : Graceful q (reserve name bytes) :=
  bind get fun _ => ite (pure _) (modify (fun _ => rfl) fun _ => rfl)

theorem once (stub : Stub) {calls : List Call} (known : calls.all Call.known = true) : Graceful q (once stub calls) :=
  bind get fun _ => ite (pure _) (seq (code known) (modify (fun _ => rfl) fun _ => rfl))

/-! ### Expressions -/

theorem eval (node : Expr) (dst : Reg) : Graceful q (eval node dst) := by
  have leaf (node : Expr) (dst : Reg) : Graceful q (do
      let operand ← Codegen.ofExcept ((← MonadState.get).operand node)
      asm (operand.mov dst)) :=
    bind get fun g => bind (ofExcept fun _ => operand_polite g node) fun operand => code (mov_known dst operand)
  induction node generalizing dst with
  | binExpr op left right ihl ihr =>
    have combined : [combine op].all Call.known = true := by cases op <;> rfl
    exact seq (ihl _) <| seq (code rfl) <| seq (ihr _) <| seq (code rfl) <| seq (code combined) (code (copyTo_known _ _))
  | _ => exact leaf _ dst

theorem evalOr (node : Option Expr) (dst : Reg) {default : List Call} (known : default.all Call.known = true) :
    Graceful q (evalOr node dst default) := by
  cases node with
  | none => exact code known
  | some node => exact eval node dst

theorem baseReg (base : Expr) : Graceful q (baseReg base) := by
  cases base with
  | reg name => exact reg name
  | ident name =>
    refine bind get fun g => ?_
    split
    · exact seq (code rfl) (pure _)
    · exact seq (code rfl) (pure _)
  | _ => exact codegenError _

theorem basePhys (base : Expr) : Graceful q (basePhys base) := by
  cases base with
  | reg name => exact reg name
  | ident name => exact seq (code rfl) (pure _)
  | number value => exact seq (code rfl) (pure _)
  | _ => exact codegenError _

theorem indexReg (index : Option Expr) : Graceful q (indexReg index) := by
  cases index with
  | none => exact pure _
  | some node =>
    cases node with
    | reg name => exact bind (reg name) fun _ => pure _
    | _ => exact seq (eval _ _) (pure _)

theorem pushArgs (via : Reg) (args : List Expr) : Graceful q (pushArgs via args) := by
  induction args with
  | nil => exact pure _
  | cons arg args ih => exact seq (eval _ _) (seq (code rfl) ih)

end Graceful

end Codegen

end Aclm
