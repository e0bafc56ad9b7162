import Aclm.Parser.Alike

/-! The methods of the parser, one after the other: what they read does not depend on where the tokens stand, nor on what
follows the statement. -/

set_option autoImplicit false

namespace Aclm.Parse

open X64 (Byte)
open Encoder (Size)

variable {parser : Parser}

/-! ### Words -/

theorem Consumes.name : Consumes parser name := fun _ =>
  (Sim.expectFor (by decide) "").bind (R := Eq) (i := 0) fun _ _ same => .pure same

namespace Stable

theorem name : Stable parser name := Consumes.name.stable

theorem keyword : Stable parser keyword := name.bind fun _ => pure _

theorem label : Stable parser label := fun _ =>
  ((Sim.expectFor (by decide) "").bind (R := Eq) (i := 0) fun _ _ same => .pure same).mono (Nat.zero_le 1)

theorem number : Stable parser number := by
  intro b
  refine (Sim.bind (R := Eq) (i := 0) (Sim.expectFor (k := .number) (by decide) "") fun t t' same => ?_).mono (Nat.zero_le 1)
  rw [same]
  exact int _ _ _

/-- A token that has to be there, and is not looked at. -/
theorem token {k : T} (within : Within k) (msg : String) {α : Type} {p : Parse α} (rest : Stable parser p) :
    Stable parser (do let _ ← expectFor k msg; p) :=
  fun _ => ((Sim.expectFor within msg).bind (R := Eq) (i := 0) fun _ _ _ => rest _).mono (Nat.zero_le 1)

theorem eq : Stable parser eq := token (by decide) _ (pure _)

theorem comma : Stable parser comma := token (by decide) _ (pure _)

theorem colon : Stable parser colon := token (by decide) _ (pure _)

theorem accept {k : T} (within : Within k) : Stable parser (accept k) := by
  have choice : Stable parser (do if ← Parse.accept k then Pure.pure true else Pure.pure false) :=
    ifAccept within (pure true) (pure false)
  have same : (do if ← Parse.accept k then Pure.pure true else Pure.pure false : Parse Bool) = Parse.accept k := by
    conv_rhs => rw [← bind_pure (Parse.accept k)]
    exact congrArg _ (funext fun b => by cases b <;> rfl)
  rwa [same] at choice

theorem skip {k : T} (within : Within k) : Stable parser (skip k) := (accept within).bind fun _ => pure _

end Stable

/-! ### Expressions -/

theorem chain_sim {operator : T → Option ExprOp} (within : ∀ k, ¬ Within k → operator k = none)
    {next next' : Parse Expr} {b : Nat} (operands : Sim parser b 1 Eq next next') (n : Nat) (node : Expr) {n' : Nat}
    (le : n' ≤ b + 1) : Sim parser n' 0 Eq (chain operator next n node) (chain operator next' n' node) := by
  induction n generalizing n' node with
  | zero => exact .exhausted
  | succ n ih =>
    cases n' with
    | zero => exact .none
    | succ n' =>
      refine ⟨fun {_ toks toks'} alike short => ?_⟩
      have whole := alike
      cases alike with
      | last ends ends' =>
        obtain ⟨t, rest, rfl, out⟩ := ends.head
        obtain ⟨t', rest', rfl, out'⟩ := ends'.head
        refine .kind ?_
        rw [within _ out, within _ out']
        exact (Sim.pure rfl).follows whole short
      | @cons t t' toks toks' kind value inside alike =>
        refine .kind ?_
        rw [← kind]
        cases operator t.kind with
        | none => exact (Sim.pure rfl).follows whole short
        | some op =>
          have rest : Sim parser n' 1 Eq (do let right ← next; chain operator next n (.binExpr op node right))
              (do let right ← next'; chain operator next' n' (.binExpr op node right)) := by
            refine (operands.shorter (Nat.le_of_succ_le_succ le)).bind (R := Eq) (i := 0) fun right right' same => ?_
            subst same
            exact (ih _ (Nat.le_of_succ_le le)).shorter (Nat.sub_le n' 1)
          exact (Tracks.adv kind inside (rest.follows alike (Nat.lt_of_succ_lt_succ short))).mono (Nat.zero_le _)

theorem mulOperator_within (k : T) (out : ¬ Within k) : mulOperator k = none := by
  cases k <;> first | rfl | exact absurd (by decide) out

theorem addOperator_within (k : T) (out : ¬ Within k) : addOperator k = none := by
  cases k <;> first | rfl | exact absurd (by decide) out

/-- A loop over operators has as many turns as there are tokens. -/
theorem chain_remaining {operator : T → Option ExprOp} (within : ∀ k, ¬ Within k → operator k = none)
    {next next' : Parse Expr} {b : Nat} (operands : Sim parser b 1 Eq next next') (node : Expr) :
    Sim parser b 0 Eq (do chain operator next ((← remaining) + 1) node) (do chain operator next' ((← remaining) + 1) node) where
  follows := fun {_ toks _} alike short => fun e rest ran =>
    (chain_sim within operands (toks.length + 1) node (Nat.succ_le_succ (Nat.le_of_lt short))).follows alike
      (Nat.lt_succ_self _) e rest ran

theorem exprMul_sim {next next' : Parse Expr} {b : Nat} (operands : Sim parser b 1 Eq next next') :
    Sim parser b 1 Eq (exprMul next) (exprMul next') := by
  refine operands.bind (i := 0) fun node node' same => ?_
  subst same
  exact chain_remaining mulOperator_within (operands.shorter (Nat.sub_le b 1)) node

theorem exprAdd_sim {next next' : Parse Expr} {b : Nat} (operands : Sim parser b 1 Eq next next') :
    Sim parser b 1 Eq (exprAdd next) (exprAdd next') := by
  refine (exprMul_sim operands).bind (i := 0) fun node node' same => ?_
  subst same
  exact chain_remaining addOperator_within ((exprMul_sim operands).shorter (Nat.sub_le b 1)) node

theorem primaryIn_sim (n n' : Nat) : Sim parser n' 1 Eq (primaryIn n) (primaryIn n') := by
  induction n generalizing n' with
  | zero => exact .exhausted
  | succ n ih =>
    cases n' with
    | zero => exact .none
    | succ n' =>
      refine ⟨fun {_ toks toks'} alike short => ?_⟩
      cases alike with
      | last ends ends' =>
        obtain ⟨t, rest, rfl, out⟩ := ends.head
        refine .of_fails fun out' ran => ?_
        rw [primaryIn, bind_run peek_cons] at ran
        have kind : t.kind = .newline ∨ t.kind = .eof := by
          cases kind : t.kind <;> first | exact absurd (kind ▸ by decide) out | simp
        rcases kind with kind | kind <;> (rw [kind] at ran; cases ran)
      | @cons t t' toks toks' kind value inside alike =>
        have short := Nat.lt_of_succ_lt_succ short
        rw [primaryIn, primaryIn]
        refine .peek ?_
        rw [← kind, ← value]
        cases kind' : t.kind with
        | lparen =>
          refine .adv kind inside ?_
          have inner : Sim parser n' 0 Eq (do let node ← exprAdd (primaryIn n); let _ ← expectFor .rparen "closing )"; return node)
              (do let node ← exprAdd (primaryIn n'); let _ ← expectFor .rparen "closing )"; return node) := by
            refine ((exprAdd_sim (ih n')).bind (R := Eq) (i := 0) fun node node' same => ?_).mono (Nat.zero_le 1)
            subst same
            exact Stable.token (by decide) _ (Stable.pure node) _
          exact inner.follows alike short
        | number => exact .adv kind inside ((((Stable.int 0 t.value).bind fun _ => .pure _) _).follows alike short)
        | string => exact .adv kind inside ((Sim.pure rfl).follows alike short)
        | ident =>
          refine .adv kind inside ?_
          have inner : Stable parser (do
              if isRegName t.value then return Expr.reg t.value
              if ← accept .dot then return .structFieldRef t.value (← name)
              return .ident t.value) :=
            .ite (.pure _) (.ifAccept (by decide) (Stable.name.bind fun _ => .pure _) (.pure _))
          exact (inner _).follows alike short
        | _ => exact .of_fails fun _ ran => by cases ran

theorem Consumes.primary : Consumes parser primary := fun _ =>
  { follows := fun {_ toks toks'} alike _ e rest ran =>
      (primaryIn_sim (toks.length + 1) (toks'.length + 1)).follows alike (Nat.lt_succ_self _) e rest ran }

theorem Consumes.operand : Consumes parser operand := fun _ =>
  { follows := fun {_ toks toks'} alike _ e rest ran =>
      (exprAdd_sim (primaryIn_sim (toks.length + 1) (toks'.length + 1))).follows alike (Nat.lt_succ_self _) e rest ran }

namespace Stable

theorem primary : Stable parser primary := Consumes.primary.stable

theorem operand : Stable parser operand := Consumes.operand.stable

theorem optOperand : Stable parser optOperand := ifEnd (pure _) (operand.bind fun _ => pure _)

theorem operands : Stable parser operands := by
  refine loop (f := fun n => operandsFrom n []) fun n n' => ?_
  suffices turns : ∀ args, Sim parser n' 0 Eq (operandsFrom n args) (operandsFrom n' args) from turns []
  induction n generalizing n' with
  | zero => exact fun _ => .exhausted
  | succ n ih =>
    intro args
    cases n' with
    | zero => exact .none
    | succ n' =>
      refine .ifEnd (.pure rfl) (.ifAccept (by decide) (ih n' args) ?_)
      refine ((Consumes.operand _).bind (R := Eq) (i := 0) fun arg arg' same => ?_).mono (Nat.zero_le 1)
      subst same
      exact ih n' _

/-! ### Addresses -/

theorem checkScale (msg : String) (scale : Int) : Stable parser (checkScale msg scale) := ite (pure _) (fail _)

theorem addNumber (n : Int) (off : Expr) : Stable parser (addNumber n off) := by
  cases off with
  | number => exact pure _
  | _ => exact fail _

theorem memPart (a : Address) (part : Expr) : Stable parser (memPart a part) := by
  unfold Parse.memPart
  split
  · exact (checkScale _ _).bind fun _ => pure _
  · exact ifAccept (by decide) (number.bind fun _ => (checkScale _ _).bind fun _ => pure _) (pure _)
  · split <;> exact pure _
  · exact pure _
  · exact pure _

theorem memParts (a : Address) : Stable parser (do memParts ((← remaining) + 1) a) := by
  refine loop (f := fun n => Parse.memParts n a) fun n n' => ?_
  induction n generalizing n' a with
  | zero => exact .exhausted
  | succ n ih =>
    cases n' with
    | zero => exact .none
    | succ n' =>
      refine .ifAccept (by decide) (.ifTaken (by decide) (fun t t' same => ?_) ?_) (.pure rfl)
      · rw [same]
        exact (int _ _).before fun _ => (addNumber _ _).before fun _ => ih _ _
      · exact operand.before fun _ => (memPart _ _).before fun _ => ih _ _

theorem memAddr : Stable parser memAddr :=
  token (k := .lbrack) (by decide) _ <| primary.bind fun base =>
    looped (f := fun n => Parse.memParts n ⟨base, .number 0, none, 1⟩) (memParts _) fun _ =>
    token (k := .rbrack) (by decide) "" (pure _)

theorem baseOffset : Stable parser baseOffset :=
  have close (base : Expr) (off : Int) : Stable parser (do let _ ← expect .rbrack; return (base, off)) :=
    token (k := .rbrack) (by decide) _ (pure _)
  token (k := .lbrack) (by decide) _ <| operand.bind fun _ =>
    ifAccept (k := .plus) (by decide) (number.bind fun _ => close _ _) ((pure 0).bind fun _ => close _ _)

theorem leaParts (index : Option Expr) (scale offset : Int) :
    Stable parser (do Parse.leaParts ((← remaining) + 1) index scale offset) := by
  refine loop (f := fun n => Parse.leaParts n index scale offset) fun n n' => ?_
  induction n generalizing n' index scale offset with
  | zero => exact .exhausted
  | succ n ih =>
    cases n' with
    | zero => exact .none
    | succ n' =>
      refine .ifAccept (by decide) (.ifTaken (by decide) (fun t t' same => ?_) ?_) (.pure rfl)
      · rw [same]
        exact (int _ _).before fun _ => ih _ _ _ _
      · refine primary.before fun part => ?_
        split
        · exact (checkScale _ _).before fun _ => ih _ _ _ _
        · exact .ifAccept (by decide) (number.before fun _ => (checkScale _ _).before fun _ => (ih _ _ _ _).shorter (Nat.sub_le n' 1))
            (ih _ _ _ _)
        · exact .fail _

/-! ### Forms -/

theorem ofName (op : String → Op) : Stable parser (ofName op) := name.bind fun _ => pure _

theorem ofOperand (op : Expr → Op) : Stable parser (ofOperand op) := operand.bind fun _ => pure _

theorem ofPair (op : String → String → Op) : Stable parser (ofPair op) :=
  name.bind fun _ => eq.seq <| name.bind fun _ => pure _

theorem ofTriple (op : String → String → String → Op) : Stable parser (ofTriple op) :=
  name.bind fun _ => eq.seq <| name.bind fun _ => seq (skip (by decide)) <| name.bind fun _ => pure _

theorem ofNames (op : String → String → Op) : Stable parser (ofNames op) :=
  name.bind fun _ => seq (skip (by decide)) <| name.bind fun _ => pure _

theorem ofNameImm (op : String → Int → Op) : Stable parser (ofNameImm op) :=
  name.bind fun _ => seq (skip (by decide)) <| number.bind fun _ => pure _

theorem ofNamesImm (op : String → String → Int → Op) : Stable parser (ofNamesImm op) :=
  name.bind fun _ => seq (skip (by decide)) <| name.bind fun _ => seq (skip (by decide)) <| number.bind fun _ => pure _

theorem ofPairImm (op : String → String → Int → Op) : Stable parser (ofPairImm op) :=
  name.bind fun _ => eq.seq <| name.bind fun _ => seq (skip (by decide)) <| number.bind fun _ => pure _

theorem ofAssign (op : String → Expr → Op) : Stable parser (ofAssign op) :=
  name.bind fun _ => eq.seq <| operand.bind fun _ => pure _

theorem ofAssign2 (op : String → Expr → Expr → Op) : Stable parser (ofAssign2 op) :=
  name.bind fun _ => eq.seq <| operand.bind fun _ => comma.seq <| operand.bind fun _ => pure _

theorem ofOperands2 (op : Expr → Expr → Op) : Stable parser (ofOperands2 op) :=
  operand.bind fun _ => seq (skip (by decide)) <| operand.bind fun _ => pure _

theorem ofOperands3 (op : Expr → Expr → Expr → Op) : Stable parser (ofOperands3 op) :=
  operand.bind fun _ => seq (skip (by decide)) <| operand.bind fun _ => seq (skip (by decide)) <| operand.bind fun _ => pure _

/-- Every form of a family reads the same. -/
theorem family (kw : String) {forms : Dict (Parse Op)} (all : (forms.map Prod.snd).Forall (Stable parser)) :
    Stable parser (family kw forms) := by
  refine keyword.bind fun op => ?_
  cases found : forms.get? op with
  | none => exact fail _
  | some form => exact List.forall_iff_forall_mem.mp all form (Dict.mem_of_get? found)

theorem movWidth (op : String → String → Int → Op) : Stable parser (movWidth op) :=
  name.bind fun _ => eq.seq <| name.bind fun _ =>
    ifAccept (by decide) (number.bind fun _ => pure _) ((pure _).bind fun _ => pure _)

theorem privReg (op : CpuPriv) : Stable parser (privReg op) := ifKind (by decide) (name.bind fun _ => pure _) (pure _)

theorem cpuEnter : Stable parser cpuEnter :=
  number.bind fun _ => ifAccept (by decide) (number.bind fun _ => pure _) ((pure _).bind fun _ => pure _)

theorem cpuMulx : Stable parser cpuMulx :=
  name.bind fun _ => seq (skip (by decide)) <| name.bind fun _ => eq.seq <| name.bind fun _ => pure _

theorem cpuPrefetch : Stable parser cpuPrefetch := keyword.bind fun _ => name.bind fun _ => pure _

theorem cpuImulImm : Stable parser cpuImulImm := name.bind fun _ => eq.seq <| number.bind fun _ => pure _

theorem cpuCmpxchg16b : Stable parser cpuCmpxchg16b := baseOffset.bind fun _ => pure _

theorem cpuCmovMem : Stable parser cpuCmovMem :=
  name.bind fun _ => eq.seq <| baseOffset.bind fun _ => seq (skip (by decide)) <| keyword.bind fun _ => pure _

theorem cpuBt : Stable parser cpuBt := name.bind fun _ => seq (skip (by decide)) <| operand.bind fun _ => pure _

theorem cpuCmov : Stable parser cpuCmov :=
  name.bind fun _ => eq.seq <| operand.bind fun _ => seq (skip (by decide)) <| keyword.bind fun _ => pure _

theorem cpuLea : Stable parser cpuLea :=
  name.bind fun _ => eq.seq <| token (k := .lbrack) (by decide) "" <|
    ifWord _ (token (k := .plus) (by decide) "" <| name.bind fun _ => token (k := .rbrack) (by decide) "" (pure _)) <|
    ifWord _ (number.bind fun _ => token (k := .rbrack) (by decide) "" (pure _)) <|
    primary.bind fun _ => looped (f := fun n => Parse.leaParts n none 1 0) (leaParts _ _ _) fun _ =>
    token (k := .rbrack) (by decide) "" (pure _)

theorem cpuForms : (Parse.cpuForms.map Prod.snd).Forall (Stable parser) := by
  rw [Parse.cpuForms, List.map_append, List.map_append, List.map_append, List.map_map, List.map_map, List.map_map]
  refine List.forall_append.mpr ⟨List.forall_append.mpr ⟨List.forall_append.mpr ⟨?_, ?_⟩, ?_⟩, ?_⟩
  · exact ⟨ofPair _, ofPairImm _, ofName _, ofName _, ofName _, ofName _, pure _, ofName _, ofName _, ofName _, ofName _,
      movWidth _, movWidth _, ofNameImm _, ofNameImm _, ofNameImm _, ofNameImm _, ofNamesImm _, ofNamesImm _, pure _,
      cpuEnter, ofTriple _, ofTriple _, cpuMulx, ofNames _, cpuPrefetch, ofName _, ofTriple _, ofTriple _, ofTriple _,
      ofPairImm _, ofTriple _, ofPair _, ofPair _, ofPair _, ofPair _, ofPair _, ofPair _, ofName _, ofName _, ofPair _,
      ofPair _, ofName _, ofName _, ofName _, ofNameImm _, ofNames _, ofNames _, ofNames _, ofPair _, ofPair _, ofPair _,
      ofNames _, ofNames _, cpuImulImm, ofTriple _, ofTriple _, cpuCmpxchg16b, cpuCmovMem, ofNames _, ofPair _,
      ofAssign _, ofAssign _, cpuBt, ofName _, ofName _, ofName _, ofName _, cpuCmov, cpuLea, ofOperands2 _⟩
  · exact (List.forall_map_iff _).mpr (List.forall_iff_forall_mem.mpr fun _ _ => privReg _)
  · exact (List.forall_map_iff _).mpr (List.forall_iff_forall_mem.mpr fun _ _ => pure _)
  · exact (List.forall_map_iff _).mpr (List.forall_iff_forall_mem.mpr fun _ _ => ofAssign _)

/-! ### Data and memory -/

theorem dataAlign : Stable parser dataAlign := number.bind fun _ => ite ((fail _).bind fun _ => pure _) (pure _)

/-- A number or a word that is read as one, or the end of a list of bytes. -/
theorem ifByte {b : Nat} {α : Type} {f f' g g' : Tok → Parse α} {stop stop' : Parse α}
    (number : ∀ t t', t.value = t'.value → Sim parser (b - 1) 0 Eq (f t) (f' t'))
    (word : ∀ t t', t.value = t'.value → Sim parser (b - 1) 0 Eq (g t) (g' t')) (other : Sim parser b 0 Eq stop stop') :
    Sim parser b 0 Eq
      (do let t ← peek; if t.kind = .number then do f (← adv) else if t.kind = .ident then do g (← adv) else stop)
      (do let t ← peek; if t.kind = .number then do f' (← adv) else if t.kind = .ident then do g' (← adv) else stop') where
  follows := by
    intro tail toks toks' alike short
    have go := other.follows alike short
    cases alike with
    | last ends ends' =>
      obtain ⟨t, rest, rfl, out⟩ := ends.head
      obtain ⟨t', rest', rfl, out'⟩ := ends'.head
      have off {k : T} (out : ¬ Within k) : k ≠ .number ∧ k ≠ .ident := by
        constructor <;> (rintro rfl; exact out (by decide))
      refine .peek ?_
      rwa [if_neg (off out).1, if_neg (off out).2, if_neg (off out').1, if_neg (off out').2]
    | @cons t t' toks toks' kind value inside alike =>
      have short' : toks'.length < b - 1 := Nat.lt_sub_of_add_lt short
      refine .peek ?_
      rw [← kind]
      split
      · exact (Tracks.adv kind inside ((number t t' value).follows alike short')).mono (Nat.zero_le 1)
      · split
        · exact (Tracks.adv kind inside ((word t t' value).follows alike short')).mono (Nat.zero_le 1)
        · exact go

theorem dataValues : Stable parser (do dataValues ((← remaining) + 1) []) := by
  refine loop (f := fun n => Parse.dataValues n []) fun n n' => ?_
  suffices turns : ∀ vals, Sim parser n' 0 Eq (Parse.dataValues n vals) (Parse.dataValues n' vals) from turns []
  induction n generalizing n' with
  | zero => exact fun _ => .exhausted
  | succ n ih =>
    intro vals
    cases n' with
    | zero => exact .none
    | succ n' =>
      refine .ifEnd (.pure rfl) (.ifAccept (by decide) (ih n' vals) (ifByte (fun t t' same => ?_) (fun t t' same => ?_) (.pure rfl)))
      · rw [same]
        exact (int _ _).before fun _ => ih n' _
      · rw [same]
        exact (int _ _).before fun _ => ih n' _

theorem dataForm : Stable parser dataForm := by
  refine keyword.bind fun what => ite dataAlign <| name.bind fun dest => eq.seq <| ite ?_ <| ite ?_ <| ite ?_ (fail _)
  · exact ifKind (by decide) (number.bind fun _ => pure _) (name.bind fun _ => pure _)
  · refine ifTaken (by decide) (fun t t' same b => ?_) (number.bind fun _ => pure _)
    rw [same]
    exact .pure rfl
  · exact looped (f := fun n => Parse.dataValues n []) dataValues fun _ => ite ((fail _).bind fun _ => pure _) (pure _)

theorem ramRead (size : Size) : Stable parser (ramRead size) := name.bind fun _ => eq.seq <| memAddr.bind fun _ => pure _

theorem ramWrite (size : Size) : Stable parser (ramWrite size) := memAddr.bind fun _ => eq.seq <| operand.bind fun _ => pure _

theorem ramForms : (Parse.ramForms.map Prod.snd).Forall (Stable parser) :=
  ⟨ramRead _, ramRead _, ramRead _, ramRead _, ramRead _, ramWrite _, ramWrite _, ramWrite _, ramWrite _, ramWrite _⟩

theorem sysCall : Stable parser sysCall :=
  ifKind (by decide) (bind (number.bind fun _ => pure _) fun _ => operands.bind fun _ => pure _)
    (bind (name.bind fun _ => pure _) fun _ => operands.bind fun _ => pure _)

/-! ### The families -/

theorem blastForms : (Parse.blastForms.map Prod.snd).Forall (Stable parser) :=
  ⟨ofAssign2 _, ofAssign2 _, ofAssign2 _, ofAssign2 _, ofAssign2 _, ofAssign2 _⟩

theorem stackForms : (Parse.stackForms.map Prod.snd).Forall (Stable parser) :=
  ⟨ofOperand _, ofName _⟩

theorem wireCopy : Stable parser wireCopy := operand.bind fun _ => eq.seq <| operand.bind fun _ => pure _

theorem wireEmit : Stable parser wireEmit :=
  operand.bind fun _ => ifEnd (pure _) (seq (skip (by decide)) <| operand.bind fun _ => pure _)

theorem wireForms : (Parse.wireForms.map Prod.snd).Forall (Stable parser) :=
  ⟨ofAssign _, ofAssign2 _, wireCopy, wireEmit⟩

theorem cellMap : Stable parser cellMap :=
  name.bind fun _ => eq.seq <| operand.bind fun _ => ifAccept (by decide)
    (operand.bind fun _ => ifAccept (by decide) (operand.bind fun _ => pure _) (pure _)) (pure _)

theorem cellMapFile : Stable parser cellMapFile :=
  name.bind fun _ => eq.seq <| operand.bind fun _ => seq (skip (by decide)) <| operand.bind fun _ => ifAccept (by decide)
    (operand.bind fun _ => ifAccept (by decide) (operand.bind fun _ => pure _) (pure _)) (pure _)

theorem cellForms : (Parse.cellForms.map Prod.snd).Forall (Stable parser) :=
  ⟨cellMap, cellMapFile, ofOperands2 _, ofOperands3 _⟩

theorem gateForms : (Parse.gateForms.map Prod.snd).Forall (Stable parser) :=
  ⟨ofTriple _, ofName _, ifKind (by decide) (keyword.bind fun _ => pure _) (pure _)⟩

theorem pulseForms : (Parse.pulseForms.map Prod.snd).Forall (Stable parser) :=
  ⟨ofOperand _, ofName _⟩

theorem chipDests (dests : List String) : Stable parser (chipDests dests) := by
  induction dests with
  | nil => exact pure _
  | cons dest rest ih =>
    refine ifKind (by decide) (name.bind fun first => ?_) (pure _)
    exact ite (seq (skip (by decide)) <| ih.bind fun _ => pure _) (ih.bind fun _ => pure _)

theorem chipId : Stable parser chipId := by
  refine operand.bind fun leaf => (chipDests _).bind fun dests => ?_
  split
  · exact pure _
  · exact exhausted

theorem pitInit : Stable parser pitInit := ifKind (by decide) (number.bind fun _ => pure _) (pure _)

theorem chipForms : (Parse.chipForms.map Prod.snd).Forall (Stable parser) :=
  ⟨ofName _, chipId, pure _, pure _, pure _, pure _, pure _, ofOperand _, ofName _, ofName _, ofName _,
    number.bind fun _ => pure _, pitInit, pure _⟩

theorem syscallRegister : Stable parser syscallRegister :=
  number.bind fun _ => comma.seq <| ifKind (by decide) (label.bind fun _ => pure _) (name.bind fun _ => pure _)

theorem dmaRingInit : Stable parser dmaRingInit := ifKind (by decide) (number.bind fun _ => pure _) (pure _)

theorem kernelForms : (Parse.kernelForms.map Prod.snd).Forall (Stable parser) := by
  have pair (op : String → String → Op) : Stable parser (do let a ← Parse.name; Parse.comma; return op a (← Parse.name)) :=
    name.bind fun _ => comma.seq <| name.bind fun _ => pure _
  have both (op : Expr → Expr → Op) : Stable parser (do let a ← Parse.operand; Parse.comma; return op a (← Parse.operand)) :=
    operand.bind fun _ => comma.seq <| operand.bind fun _ => pure _
  have ramfsPut : Stable parser ramfsPut :=
    operand.bind fun _ => comma.seq <| operand.bind fun _ => comma.seq <| operand.bind fun _ => pure _
  have nicRegWrite : Stable parser nicRegWrite := operand.bind fun _ => eq.seq <| operand.bind fun _ => pure _
  exact ⟨number.bind fun _ => pure _, ofAssign _, ofName _, ofName _, pure _, pair _, ofOperand _, pure _, pure _, ofName _,
    pure _, ramfsPut, ofAssign _, pure _, ofName _, ofName _, both _, pure _, number.bind fun _ => pure _, ofAssign _, ofName _,
    pure _, pure _, ofOperand _, ofAssign _, nicRegWrite, pure _, pure _, syscallRegister, pure _, dmaRingInit, both _, pair _⟩

theorem portForms : (Parse.portForms.map Prod.snd).Forall (Stable parser) := by
  have portOut : Stable parser portOut := operand.bind fun _ => eq.seq <| operand.bind fun _ => pure _
  exact ⟨portOut, ofAssign _⟩

theorem vecFrom (op : String → Expr → Int → Op) : Stable parser (vecFrom op) :=
  name.bind fun _ => eq.seq <| baseOffset.bind fun _ => pure _

theorem vecTo (op : Expr → Int → String → Op) : Stable parser (vecTo op) :=
  baseOffset.bind fun _ => eq.seq <| name.bind fun _ => pure _

theorem vecForms : (Parse.vecForms.map Prod.snd).Forall (Stable parser) :=
  ⟨vecFrom _, vecTo _, ofPair _, ofPair _, ofPair _, ofPair _, ofPair _, ofPair _, ofPair _, ofPair _, ofPairImm _,
    ofPair _, vecFrom _, vecTo _⟩

theorem threadForms : (Parse.threadForms.map Prod.snd).Forall (Stable parser) := by
  have threadSpawn : Stable parser threadSpawn := name.bind fun _ => eq.seq <| label.bind fun _ => pure _
  exact ⟨threadSpawn, pure _, pure _, optOperand.bind fun _ => pure _, optOperand.bind fun _ => pure _⟩

theorem netForms : (Parse.netForms.map Prod.snd).Forall (Stable parser) := by
  have epollCreate : Stable parser epollCreate := name.bind fun _ => eq.seq <| optOperand.bind fun _ => pure _
  have epollCtl : Stable parser epollCtl :=
    operand.bind fun _ => seq (skip (by decide)) <| operand.bind fun _ => seq (skip (by decide)) <|
      operand.bind fun _ => seq (skip (by decide)) <| operand.bind fun _ => pure _
  have epollWait : Stable parser epollWait :=
    name.bind fun _ => eq.seq <| operand.bind fun _ => seq (skip (by decide)) <| operand.bind fun _ =>
      seq (skip (by decide)) <| operand.bind fun _ => seq (skip (by decide)) <| operand.bind fun _ => pure _
  have netSocket : Stable parser netSocket := name.bind fun _ => eq.seq <| ofOperands3 _
  exact ⟨ofOperands3 _, epollCreate, epollCtl, epollWait, netSocket, ofOperands3 _, ofOperands3 _, ofOperands3 _, ofOperand _⟩

/-! ### Statements without a family of their own -/

theorem ret : Stable parser ret := by
  refine optOperand.bind fun value => ?_
  cases value with
  | none => exact pure _
  | some value => exact pure _

theorem sigAction : Stable parser sigAction :=
  operand.bind fun _ => seq (skip (by decide)) <|
    ifKind (by decide) (label.bind fun _ => pure _) (operand.bind fun _ => pure _)

theorem section' : Stable parser section' :=
  keyword.bind fun _ => ifWord _ (colon.seq <| number.bind fun _ => pure _) (pure _)

theorem flagSetcc : Stable parser flagSetcc := name.bind fun _ => eq.seq <| keyword.bind fun _ => pure _

theorem flagsSet : Stable parser flagsSet := keyword.bind fun _ => ite ((fail _).bind fun _ => pure _) (pure _)

theorem assertSize : Stable parser assertSize := keyword.bind fun _ => seq (skip (by decide)) <| number.bind fun _ => pure _

theorem assertBytes : Stable parser assertBytes := by
  refine name.bind fun name b => ⟨fun {tail toks toks'} alike short => ?_⟩
  have limit (op : AssertOp) : Stable parser (do return Op.assertBytes name (← Parse.number) op) := number.bind fun _ => pure _
  have mark (op : AssertOp) : Stable parser (do
      let op ← if ← Parse.accept .eq then Pure.pure AssertOp.eq else Pure.pure op
      return Op.assertBytes name (← Parse.number) op) :=
    ifAccept (by decide) ((pure _).bind limit) ((pure _).bind limit)
  have plain : Stable parser (do
      let op ← if ← Parse.accept .eq then Pure.pure AssertOp.eq else Pure.pure AssertOp.le
      let op ← if ← Parse.accept .eq then Pure.pure AssertOp.eq else Pure.pure op
      return Op.assertBytes name (← Parse.number) op) :=
    ifAccept (by decide) ((pure _).bind mark) ((pure _).bind mark)
  have go := (plain b).follows alike short
  cases alike with
  | last ends ends' =>
    obtain ⟨t, rest, rfl, out⟩ := ends.head
    obtain ⟨t', rest', rfl, out'⟩ := ends'.head
    have off {u : Tok} (out : ¬ Within u.kind) : ¬ (u.kind = .ident ∧ u.value ∈ ["le", "eq", "lte"]) :=
      fun word => out (word.1 ▸ by decide)
    refine .peek ?_
    simp only [if_neg (off out), if_neg (off out')]
    exact go
  | @cons t t' toks toks' kind value inside alike =>
    refine .peek ?_
    rw [← kind, ← value]
    by_cases word : t.kind = .ident ∧ t.value ∈ ["le", "eq", "lte"]
    · simp only [if_pos word]
      let f (u : Tok) : Parse Op := do
        let op ← Pure.pure (if lower u.value = "eq" then AssertOp.eq else .le)
        let op ← if ← Parse.accept .eq then Pure.pure AssertOp.eq else Pure.pure op
        return Op.assertBytes name (← Parse.number) op
      have same : f t' = f t := by simp only [f, value]
      have rest : Tracks parser tail 0 Eq (f t) (f t') toks toks' := by
        rw [same]
        exact (mark (if lower t.value = "eq" then .eq else .le) b).follows alike (Nat.lt_of_succ_lt short)
      have read := (Tracks.adv kind inside rest).mono (Nat.zero_le 1)
      have other : t.kind ≠ .eq := by simp [word.1]
      intro a left ran
      rw [bind_run (accept_other other)] at ran
      rw [bind_run (accept_other (kind ▸ other))]
      exact read a left ran
    · simp only [if_neg word]
      exact go

end Stable

/-! ### Statements of several lines -/

theorem fails_bind {α β : Type} {p : Parse α} {f : α → Parse β} {toks : List Tok} (fails : ∀ out, p parser toks ≠ .ok out)
    (out : β × List Tok) : (p >>= f) parser toks ≠ .ok out := by
  intro ran
  obtain ⟨a, mid, first, -⟩ := bind_ok.mp (ran : (p >>= f) parser toks = .ok (out.1, out.2))
  exact fails _ first

theorem name_fails {t : Tok} {rest : List Tok} (other : t.kind ≠ .ident) (out : String × List Tok) :
    name parser (t :: rest) ≠ .ok out := by
  intro ran
  obtain ⟨u, kind, -, same⟩ := name_ok (ran : name parser (t :: rest) = .ok (out.1, out.2))
  cases same
  exact other kind

/-- More is needed before the end of the file. -/
theorem Sim.more {b j : Nat} {α α' : Type} {S : α → α' → Prop} {p : Parse α} {q : Parse α'} (e : PyErr)
    (needs : ∀ t rest, ¬ Within t.kind → ∀ out, p parser (t :: rest) ≠ .ok out) (rest : Sim parser b j S p q) :
    Sim parser b j S
      (do
        if (← kind) = .eof then Parse.fail e
        p)
      (do
        if (← kind) = .eof then Parse.fail e
        q) where
  follows := by
    intro tail toks toks' alike short
    have go := rest.follows alike short
    cases alike with
    | last ends ends' =>
      obtain ⟨t, left, rfl, out⟩ := ends.head
      refine .of_fails fun result ran => ?_
      rw [bind_run kind_cons] at ran
      split at ran
      · cases ran
      · exact needs t left out result ran
    | @cons t t' toks toks' kind value inside alike =>
      refine .kind ?_
      rwa [if_neg inside, if_neg (kind ▸ inside)]

theorem endOf_follows (what : String) {b : Nat} {α : Type} {p p' : Parse α} {S : α → α → Prop} {t t' : Tok} {tail toks toks' : List Tok}
    (word : t.kind = .ident) (word' : t'.kind = .ident) (alike : Alike tail toks toks') (short : toks'.length + 1 < b)
    (rest : Sim parser b 0 S p p') :
    Tracks parser tail 0 S (do endOf what; p) (do endOf what; p') (t :: toks) (t' :: toks') := by
  let end' : Parse Unit := do
    colon
    let endwhat ← keyword
    if endwhat ≠ what then fail (.syntaxError s!"expected end:{what}, got end:{endwhat}")
  have stable : Stable parser end' := Stable.colon.seq <| Stable.keyword.bind fun _ => .ite (.fail _) (.pure _)
  have split (r : Parse α) : (do endOf what; r) = (do let _ ← adv; (do end'; r)) := by
    simp only [endOf, end', bind_assoc]
  have behind := (stable.before fun _ => rest).follows alike (Nat.lt_of_succ_lt short)
  rw [split, split]
  exact (Tracks.adv (word.trans word'.symm) (by simp [word]) behind).mono (Nat.zero_le 1)

theorem fieldType_stable (sname : String) : Stable parser (match fieldTypes.get? sname with
    | some size => pure size
    | none => fail (.syntaxError s!"unknown field type {sname}")) := by
  cases fieldTypes.get? sname with
  | some size => exact .pure _
  | none => exact .fail _

theorem fieldSize_stable : Stable parser fieldSize := fun b => ⟨fun {_ toks toks'} alike short => by
  have whole := alike
  cases alike with
  | last ends ends' =>
    obtain ⟨t, rest, rfl, out⟩ := ends.head
    refine .of_fails fun out' ran => ?_
    rw [fieldSize, bind_run kind_cons] at ran
    cases kind : t.kind <;> first | exact out (kind ▸ by decide) | (rw [kind] at ran; cases ran)
  | @cons t t' toks toks' kind value inside alike =>
    refine .kind ?_
    rw [← kind]
    cases t.kind with
    | ident =>
      exact ((Stable.keyword.bind fieldType_stable) b).follows whole short
    | number => exact (Stable.number b).follows whole short
    | _ => exact .of_fails fun _ ran => by cases ran⟩

theorem atWord_eof {t : Tok} (eof : t.kind = .eof) (kw : String) (rest : List Tok) :
    atWord kw parser (t :: rest) = .ok (false, t :: rest) := by
  rw [atWord_cons, decide_eq_false fun word => by rw [eof] at word; cases word.1]

theorem structFields_fails {t : Tok} (eof : t.kind = .eof) (n : Nat) (fields : List (String × Int))
    (out : List (String × Int) × List Tok) : structFields n fields parser [t] ≠ .ok out := by
  intro ran
  cases n with
  | zero => cases ran
  | succ n =>
    rw [structFields, bind_run (atWord_eof eof _ _)] at ran
    dsimp only at ran
    rw [if_neg Bool.false_ne_true, bind_run kind_cons, if_pos eof] at ran
    cases ran

theorem structFields_sim (n n' : Nat) (fields : List (String × Int)) :
    Sim parser n' 0 Eq (structFields n fields) (structFields n' fields) := by
  induction n generalizing n' fields with
  | zero => exact .exhausted
  | succ n ih =>
    cases n' with
    | zero => exact .none
    | succ n' =>
      refine .ifWord "end" (fun word word' _ alike short => endOf_follows "struct" word word' alike short (.pure rfl)) ?_
      refine .more _ (fun t rest out => fails_bind (name_fails fun same => out (same ▸ by decide))) ?_
      refine ((Consumes.name _).bind (R := Eq) (i := 0) fun fname fname' same => ?_).mono (Nat.zero_le 1)
      subst same
      exact Stable.colon.before fun _ => fieldSize_stable.before fun fsize =>
        .skipNl (fun t eof => structFields_fails eof n _) (ih n' _)

theorem struct_stable : Stable parser struct := by
  refine Stable.name.bind fun name b => .skipNl (fun t eof => ?_) ?_
  · exact fails_bind (p := do structFields ((← remaining) + 1) []) (structFields_fails eof 2 [])
  · exact Stable.looped (f := fun n => structFields n []) (.loop fun n n' => structFields_sim n n' []) (fun _ => .pure _) b

/-! ### `raw` -/

theorem mapM_stable {α β : Type} {f : α → Parse β} (each : ∀ a, Stable parser (f a)) (xs : List α) :
    Stable parser (xs.mapM f) := by
  induction xs with
  | nil => exact .pure _
  | cons x xs ih =>
    rw [List.mapM_cons]
    exact (each x).bind fun _ => ih.bind fun _ => .pure _

theorem quotedBytes_stable (s : String) : Stable parser (quotedBytes s) :=
  mapM_stable (fun _ => (Stable.int _ _).bind fun _ => .pure _) _

theorem rawNumber_stable (value : String) : Stable parser (rawNumber value) := (Stable.int _ _).bind fun _ => .pure _

theorem rawLine_sim (n n' : Nat) (parts : List Byte) : Sim parser n' 0 Eq (rawLine n parts) (rawLine n' parts) := by
  induction n generalizing n' parts with
  | zero => exact .exhausted
  | succ n ih =>
    cases n' with
    | zero => exact .none
    | succ n' =>
      refine .ifEnd (.pure rfl) (.ifAccept (by decide) (ih n' parts)
        (Stable.ifByte (fun t t' same => ?_) (fun t t' same => ?_) (.pure rfl)))
      · rw [same]
        exact (rawNumber_stable _).before fun _ => ih n' _
      · rw [same]
        exact (Stable.int _ _).before fun _ => ih n' _

theorem rawBlock_fails {toks : List Tok} (ends : Ends toks) (n : Nat) (parts : List Byte) (out : List Byte × List Tok) :
    rawBlock n parts parser toks ≠ .ok out := by
  induction ends generalizing n with
  | eof eof =>
    intro ran
    cases n with
    | zero => cases ran
    | succ n =>
      rw [rawBlock, bind_run peek_cons, eof] at ran
      cases ran
  | newline newline _ ih =>
    intro ran
    cases n with
    | zero => cases ran
    | succ n =>
      rw [rawBlock, bind_run peek_cons, newline] at ran
      dsimp only at ran
      rw [bind_run (adv_cons (by simp [newline]))] at ran
      exact ih n ran

theorem rawBlock_sim (n n' : Nat) (parts : List Byte) : Sim parser n' 0 Eq (rawBlock n parts) (rawBlock n' parts) := by
  induction n generalizing n' parts with
  | zero => exact .exhausted
  | succ n ih =>
    cases n' with
    | zero => exact .none
    | succ n' =>
      refine ⟨fun {tail toks toks'} alike short => ?_⟩
      cases alike with
      | last ends ends' => exact .of_fails (rawBlock_fails ends _ _)
      | @cons t t' toks toks' kind value inside alike =>
        have short := Nat.lt_of_succ_lt_succ short
        rw [rawBlock, rawBlock]
        refine .peek ?_
        rw [← kind, ← value]
        have turn (parts : List Byte) : Tracks parser tail 0 Eq (do let _ ← adv; rawBlock n parts) (do let _ ← adv; rawBlock n' parts)
            (t :: toks) (t' :: toks') :=
          (Tracks.adv kind inside ((ih n' parts).follows alike short)).mono (Nat.zero_le 1)
        cases word : t.kind with
        | ident =>
          refine (Tracks.adv kind inside ?_).mono (Nat.zero_le 1)
          have close : Stable parser (do
              colon
              if (← keyword) ≠ "end" then fail (.syntaxError "expected raw:end")
              return parts) :=
            Stable.colon.seq <| Stable.keyword.bind fun _ => .ite ((Stable.fail _).bind fun _ => .pure _) (.pure _)
          by_cases raw : lower t.value = "raw"
          · rw [if_pos raw, if_pos raw]
            exact (close _).follows alike short
          · rw [if_neg raw, if_neg raw]
            exact ((Stable.int _ _).before fun _ => ih n' _).follows alike short
        | newline => exact turn parts
        | comma => exact turn parts
        | string =>
          exact (Tracks.adv kind inside (((quotedBytes_stable _).before fun _ => ih n' _).follows alike short)).mono (Nat.zero_le 1)
        | number =>
          exact (Tracks.adv kind inside (((rawNumber_stable _).before fun _ => ih n' _).follows alike short)).mono (Nat.zero_le 1)
        | _ => exact .of_fails fun _ ran => by cases ran

theorem raw_stable : Stable parser raw := by
  have line : Stable parser (do return Op.rawBytes (← rawLine ((← remaining) + 1) [])) :=
    .looped (f := fun n => rawLine n []) (.loop fun n n' => rawLine_sim n n' []) fun _ => .pure _
  have block (b : Nat) : Sim parser b 0 Eq (do skipNl; return Op.rawBytes (← rawBlock ((← remaining) + 1) []))
      (do skipNl; return Op.rawBytes (← rawBlock ((← remaining) + 1) [])) := by
    refine .skipNl (fun t eof => ?_) ?_
    · exact fails_bind (p := do rawBlock ((← remaining) + 1) []) (rawBlock_fails (.eof eof) 2 [])
    · exact Stable.looped (f := fun n => rawBlock n []) (.loop fun n n' => rawBlock_sim n n' []) (fun _ => .pure _) b
  refine .ifWord "begin" block (.ifTaken (by decide) (fun t t' same b => ?_) line)
  rw [same]
  exact (quotedBytes_stable _).before fun _ => .pure rfl

end Aclm.Parse
