import Aclm.Parser.Stable

/-! Whole statements and programs from tokens that are alike, and the lines that the parser skips. -/

set_option autoImplicit false

namespace Aclm

mutual

/-- The statement without its place in the text. -/
def Stmt.unlined : Stmt → Stmt
  | .op _ o => .op 0 o
  | .fnDef _ name args body locals => .fnDef 0 name args (Stmt.unlinedAll body) locals

def Stmt.unlinedAll : List Stmt → List Stmt
  | [] => []
  | s :: rest => s.unlined :: Stmt.unlinedAll rest

end

theorem Stmt.unlinedAll_eq (stmts : List Stmt) : Stmt.unlinedAll stmts = stmts.map Stmt.unlined := by
  induction stmts with
  | nil => rfl
  | cons s rest ih => rw [Stmt.unlinedAll, ih, List.map_cons]

namespace Parse

variable {parser : Parser}

/-! ### Statements -/

theorem ofColon_stable {form : Parse Op} (stable : Stable parser form) : Stable parser (ofColon form) := Stable.colon.seq stable

theorem forms_stable : (forms.map Prod.snd).Forall (Stable parser) := by
  have listed (kw : String) {table : Dict (Parse Op)} (all : (table.map Prod.snd).Forall (Stable parser)) :
      Stable parser (ofColon (family kw table)) := ofColon_stable (.family kw all)
  have flags : Stable parser (ofColon (family "flag" [("setcc", flagSetcc), ("clear", bare .flagsClear), ("set", flagsSet)])) :=
    listed _ ⟨.flagSetcc, .pure _, .flagsSet⟩
  have wire : ((wireForms ++ [("print", wireEmit)]).map Prod.snd).Forall (Stable parser) := by
    rw [List.map_append]
    exact List.forall_append.mpr ⟨Stable.wireForms, Stable.wireEmit⟩
  have cmp : Stable parser cmp := Stable.operand.bind fun _ => Stable.comma.seq <| Stable.operand.bind fun _ => .pure _
  have jumpIf : Stable parser jumpIf := Stable.keyword.bind fun _ => Stable.label.bind fun _ => .pure _
  have call : Stable parser call := Stable.label.bind fun _ => Stable.operands.bind fun _ => .pure _
  have trap (op : String → Op) : Stable parser (do return op (← label)) := Stable.label.bind fun _ => .pure _
  have local' : Stable parser local' := Stable.name.bind fun _ => Stable.eq.seq <| Stable.number.bind fun _ => .pure _
  have file : Stable parser (do return Op.includeFile (← expect .string).value) := fun b =>
    ((Sim.expectFor (k := .string) (by decide) "").bind (R := Eq) (i := 0) fun t t' same => .pure (by rw [same])).mono (Nat.zero_le 1)
  exact ⟨listed _ Stable.cpuForms, ofColon_stable .dataForm, listed _ Stable.ramForms, listed _ Stable.sysCall,
    listed _ Stable.stackForms, cmp, jumpIf, trap _, call, .ret, listed _ Stable.blastForms, listed _
    Stable.wireForms, listed _ (trap _), listed _ Stable.cellForms, listed _ Stable.gateForms, listed _
    Stable.pulseForms, listed _ (Stable.pure _), listed _ Stable.netForms, listed _ ⟨.sigAction, .pure _⟩,
    listed _ Stable.threadForms, ofColon_stable .section', listed _ ⟨.assertBytes, .assertSize⟩, listed _ ⟨.pure
    _, .pure _⟩, ofColon_stable (.pure _), ofColon_stable (.pure _), ofColon_stable raw_stable, ofColon_stable
    file, flags, flags, listed _ Stable.chipForms, listed _ Stable.portForms, listed _ Stable.vecForms, listed _
    ⟨.ofAssign2 _, .ofAssign2 _⟩, listed _ wire, listed _ ⟨trap _, .ofName _⟩, ofColon_stable struct_stable,
    ofColon_stable local', listed _ Stable.kernelForms⟩

/-! ### Functions -/

/-- The same statement, wherever it stands. -/
def Same (s s' : Stmt) : Prop := s.unlined = s'.unlined

/-- The same statements in a body, and the same locals. -/
def SameBody (b b' : List Stmt × List (String × Int)) : Prop := Stmt.unlinedAll b.1 = Stmt.unlinedAll b'.1 ∧ b.2 = b'.2

theorem fnArgs_sim (n n' : Nat) (args : List String) : Sim parser n' 0 Eq (fnArgs n args) (fnArgs n' args) := by
  induction n generalizing n' args with
  | zero => exact .exhausted
  | succ n ih =>
    cases n' with
    | zero => exact .none
    | succ n' =>
      refine .ifKind (by decide) (fun {_ t t'} _ _ same same' value alike short => ?_) (.pure rfl)
      have next : Sim parser (n' + 1) 1 Eq (do fnArgs n (args ++ [← name])) (do fnArgs n' (args ++ [← name])) := by
        refine (Consumes.name _).bind (i := 0) fun arg arg' same => ?_
        subst same
        exact ih n' _
      exact (next.follows (.cons (same.trans same'.symm) value (by simp [same]) alike) short).mono (Nat.zero_le 1)

theorem statementIn_fails {t : Tok} (out : ¬ Within t.kind) (n : Nat) (rest : List Tok) (result : Stmt × List Tok) :
    statementIn n parser (t :: rest) ≠ .ok result := by
  intro ran
  cases n with
  | zero => cases ran
  | succ n =>
    rw [statementIn, bind_run peek_cons] at ran
    cases kind : t.kind <;> first | exact out (kind ▸ by decide) | (rw [kind] at ran; cases ran)

theorem fnBody_fails (statement : Parse Stmt) {t : Tok} (eof : t.kind = .eof) (n : Nat) (body : List Stmt)
    (locals : List (String × Int)) (out : (List Stmt × List (String × Int)) × List Tok) :
    fnBody statement n body locals parser [t] ≠ .ok out := by
  intro ran
  cases n with
  | zero => cases ran
  | succ n =>
    rw [fnBody, bind_run (atWord_eof eof _ _)] at ran
    dsimp only at ran
    rw [if_neg Bool.false_ne_true, bind_run kind_cons, if_pos eof] at ran
    cases ran

theorem unlinedAll_snoc {body body' : List Stmt} {s s' : Stmt} (bodies : Stmt.unlinedAll body = Stmt.unlinedAll body')
    (same : Same s s') : Stmt.unlinedAll (body ++ [s]) = Stmt.unlinedAll (body' ++ [s']) := by
  simp only [Stmt.unlinedAll_eq, List.map_append, List.map_cons, List.map_nil] at bodies ⊢
  rw [bodies, same]

theorem Same.localDecl {line : Int} {name : String} {size : Int} {s : Stmt} (same : Same (.op line (.localDecl name size)) s) :
    ∃ line', s = .op line' (.localDecl name size) := by
  cases s with
  | op line' o =>
    cases same
    exact ⟨line', rfl⟩
  | fnDef => cases same

theorem fnBody_sim {b : Nat} {statement statement' : Parse Stmt} (sim : Sim parser b 1 Same statement statement')
    (needs : ∀ t rest, ¬ Within t.kind → ∀ out, statement parser (t :: rest) ≠ .ok out) (n n' : Nat)
    {body body' : List Stmt} (bodies : Stmt.unlinedAll body = Stmt.unlinedAll body') (locals : List (String × Int)) :
    Sim parser (min b n') 0 SameBody (fnBody statement n body locals) (fnBody statement' n' body' locals) := by
  induction n generalizing n' body body' locals with
  | zero => exact .exhausted
  | succ n ih =>
    cases n' with
    | zero => exact Sim.none.shorter (Nat.min_le_right b 0)
    | succ n' =>
      refine .ifWord "end" (fun word word' _ alike short => endOf_follows "fn" word word' alike short (.pure ⟨bodies, rfl⟩)) ?_
      refine .more _ (fun t rest out => fails_bind (needs t rest out)) ?_
      refine ((sim.shorter (Nat.min_le_left _ _)).bind (R := SameBody) (i := 0) fun s s' same => ?_).mono (Nat.zero_le 1)
      have le : min b (n' + 1) - 1 ≤ min b n' := by omega
      split
      · obtain ⟨line', rfl⟩ := same.localDecl
        exact .skipNl (fun t eof => fnBody_fails statement eof n _ _) ((ih n' bodies _).shorter le)
      · next other =>
        split
        · obtain ⟨line, rfl⟩ := Same.localDecl same.symm
          exact (other _ _ _ rfl).elim
        · exact .skipNl (fun t eof => fnBody_fails statement eof n _ _) ((ih n' (unlinedAll_snoc bodies same) _).shorter le)

theorem fnDef_sim {b : Nat} {statement statement' : Parse Stmt} (sim : Sim parser b 1 Same statement statement')
    (needs : ∀ t rest, ¬ Within t.kind → ∀ out, statement parser (t :: rest) ≠ .ok out) (line line' : Nat) :
    Sim parser b 0 Same (fnDef line statement) (fnDef line' statement') := by
  have args : Stable parser (do fnArgs ((← remaining) + 1) []) := .loop fun n n' => fnArgs_sim n n' []
  have body : Sim parser b 0 SameBody (do fnBody statement ((← remaining) + 1) [] []) (do fnBody statement' ((← remaining) + 1) [] []) :=
    { follows := fun {_ toks toks'} alike short => fun a rest ran =>
        (fnBody_sim sim needs (toks.length + 1) (toks'.length + 1) rfl []).follows alike
          (Nat.lt_min.mpr ⟨short, Nat.lt_succ_self _⟩) a rest ran }
  refine Stable.colon.before fun _ => Stable.name.before fun name => ?_
  have whole (args : List String) : Sim parser b 0 Same
      (do
        skipNl
        let out ← fnBody statement ((← remaining) + 1) [] []
        return .fnDef line name args out.1 out.2)
      (do
        skipNl
        let out ← fnBody statement' ((← remaining) + 1) [] []
        return .fnDef line' name args out.1 out.2) := by
    have unclosed (t : Tok) (eof : t.kind = .eof) (n : Nat) {f : List Stmt × List (String × Int) → Parse Stmt} :
        ∀ out, (fnBody statement n [] [] >>= f) parser [t] ≠ .ok out :=
      fails_bind (fnBody_fails statement eof n _ _)
    refine .skipNl (fun t eof => unclosed t eof 2) ?_
    have made := body.bind (i := 0) (R := Same) (f := fun out => pure (.fnDef line name args out.1 out.2))
      (g := fun out => pure (.fnDef line' name args out.1 out.2)) fun out out' same => .pure <| by
        rw [Same, Stmt.unlined, Stmt.unlined, same.1, same.2]
    rwa [bind_assoc, bind_assoc] at made
  have both := args.before whole
  rwa [bind_assoc, bind_assoc] at both

theorem statementIn_sim (n n' : Nat) : Sim parser n' 1 Same (statementIn n) (statementIn n') := by
  induction n generalizing n' with
  | zero => exact .exhausted
  | succ n ih =>
    cases n' with
    | zero => exact .none
    | succ n' =>
      refine ⟨fun {tail toks toks'} alike short => ?_⟩
      cases alike with
      | last ends ends' =>
        obtain ⟨t, rest, rfl, out⟩ := ends.head
        exact .of_fails fun result => statementIn_fails out _ _ result
      | @cons t t' toks toks' kind value inside alike =>
        have short := Nat.lt_of_succ_lt_succ short
        refine .peek ?_
        rw [← kind]
        cases shape : t.kind with
        | label => exact .adv kind inside ((Sim.pure (by rw [Same, Stmt.unlined, Stmt.unlined, value])).follows alike short)
        | ident =>
          simp only [← value]
          by_cases fn : lower t.value = "fn"
          · simp only [if_pos fn]
            exact .adv kind inside ((fnDef_sim (ih n') (fun _ _ out => statementIn_fails out n _) _ _).follows alike short)
          · simp only [if_neg fn]
            cases found : forms.get? (lower t.value) with
            | none => exact (Sim.fail _).follows (.cons kind value inside alike) (Nat.lt_succ_self _)
            | some form =>
              have stable := List.forall_iff_forall_mem.mp (@forms_stable parser) form (Dict.mem_of_get? found)
              refine .adv kind inside (((stable n').bind (i := 0) (R := Same) fun op op' same => ?_).follows alike short)
              exact .pure (by rw [Same, Stmt.unlined, Stmt.unlined, same])
        | _ => exact (Sim.fail _).follows (.cons kind value inside alike) (Nat.lt_succ_self _)

/-- A statement is the same, wherever it stands. -/
theorem statement_sim (b : Nat) : Sim parser b 1 Same statement statement where
  follows := fun {_ toks toks'} alike _ => fun s rest ran =>
    (statementIn_sim (toks.length + 1) (toks'.length + 1)).follows alike (Nat.lt_succ_self _) s rest ran

/-! ### Programs -/

/-- Empty lines in front make no difference. -/
theorem statements_skip (n : Nat) (stmts : List Stmt) {toks toks' : List Tok}
    (same : toks.dropWhile (fun t => t.kind = .newline) = toks'.dropWhile fun t => t.kind = .newline) :
    statements n stmts parser toks = statements n stmts parser toks' := by
  cases n with
  | zero => rfl
  | succ n =>
    have skip (toks : List Tok) : skipNl parser toks = .ok ((), toks.dropWhile fun t => t.kind = .newline) := rfl
    rw [statements, bind_run (skip toks), bind_run (skip toks'), same]

/-- Statements that are a program of their own are read in front of others, too, which are left to be read. -/
theorem statements_alike {tail toks toks' : List Tok} (alike : Alike tail toks toks') (n : Nat) {n' : Nat}
    (short : toks'.length < n') {stmts stmts' all : List Stmt} {rest : List Tok}
    (same : Stmt.unlinedAll stmts = Stmt.unlinedAll stmts') (ran : statements n stmts parser toks = .ok (all, rest)) :
    ∃ m all', tail.length < m ∧ Stmt.unlinedAll all = Stmt.unlinedAll all' ∧
      statements n' stmts' parser toks' = statements m all' parser tail := by
  induction n generalizing toks toks' n' stmts stmts' with
  | zero => cases ran
  | succ n ih =>
    have fewer := (List.dropWhile_sublist (l := toks') fun t => t.kind = .newline).length_le
    have skip (toks : List Tok) : skipNl parser toks = .ok ((), toks.dropWhile fun t => t.kind = .newline) := rfl
    rw [statements, bind_run (skip toks)] at ran
    rcases alike.skip with ⟨t, eof, last, last'⟩ | ⟨t, t', more, more', newline, inside, kind, value, alike', left, right⟩
    · rw [last, bind_run kind_cons, if_pos eof] at ran
      cases ran
      exact ⟨n', stmts', Nat.lt_of_le_of_lt alike.tail_le short, same, statements_skip n' stmts' last'⟩
    · obtain ⟨n', rfl⟩ := Nat.exists_eq_succ_of_ne_zero (Nat.ne_zero_of_lt short)
      rw [right, List.length_cons] at fewer
      rw [left, bind_run kind_cons, if_neg inside, bind_run (atWord_cons _), bind_run (atWord_cons _)] at ran
      rw [statements, bind_run (skip toks'), right, bind_run kind_cons, if_neg (kind ▸ inside), bind_run (atWord_cons _),
        bind_run (atWord_cons _), ← kind, ← value]
      have both := Alike.cons kind value inside alike'
      split at ran
      · next mode =>
        rw [if_pos mode]
        have line (toks : List Tok) : skipLine parser toks =
          .ok ((), toks.dropWhile fun t => t.kind ≠ .newline ∧ t.kind ≠ .eof) := rfl
        have behind := both.dropLine
        rw [List.dropWhile_cons_of_pos (by simp [newline, inside]),
          List.dropWhile_cons_of_pos (by simp [← kind, newline, inside])] at behind
        rw [bind_run (line _), List.dropWhile_cons_of_pos (by simp [newline, inside])] at ran
        rw [bind_run (line _), List.dropWhile_cons_of_pos (by simp [← kind, newline, inside])]
        have dropped := (List.dropWhile_sublist (l := more') fun t => t.kind ≠ .newline ∧ t.kind ≠ .eof).length_le
        exact ih behind (by omega) same ran
      · next other =>
        rw [if_neg other]
        obtain ⟨s, mid, read, ran⟩ := bind_ok.mp ran
        obtain ⟨s', mid', read', related, behind, shorter⟩ := (statement_sim (more'.length + 2)).follows both
          (Nat.lt_succ_self _) s mid read
        rw [bind_run read']
        rw [List.length_cons] at shorter
        exact ih behind (by omega) (unlinedAll_snoc same related) ran

/-- The statements in front are not looked at again. -/
theorem statements_behind (n : Nat) (stmts : List Stmt) (toks : List Tok) :
    statements n stmts parser toks = (statements n [] parser toks).map fun out => (stmts ++ out.1, out.2) := by
  induction n generalizing stmts toks with
  | zero => rfl
  | succ n ih =>
    have skip (toks : List Tok) : skipNl parser toks = .ok ((), toks.dropWhile fun t => t.kind = .newline) := rfl
    rw [statements, statements, bind_run (skip toks), bind_run (skip toks)]
    cases toks.dropWhile fun t => t.kind = .newline with
    | nil => exact congrArg (fun all => Except.ok (all, [])) (List.append_nil stmts).symm
    | cons t more =>
      rw [bind_run kind_cons, bind_run kind_cons]
      by_cases eof : t.kind = .eof
      · rw [if_pos eof, if_pos eof]
        exact congrArg (fun all => Except.ok (all, t :: more)) (List.append_nil stmts).symm
      · rw [if_neg eof, if_neg eof, bind_run (atWord_cons _), bind_run (atWord_cons _), bind_run (atWord_cons _),
          bind_run (atWord_cons _)]
        split
        · exact ih stmts _
        · cases read : statement parser (t :: more) with
          | error e => simp only [bind, read]; rfl
          | ok out =>
            obtain ⟨s, rest⟩ := out
            rw [bind_run read, bind_run read, ih (stmts ++ [s]), ih ([] ++ [s])]
            cases statements n [] parser rest with
            | error e => rfl
            | ok all => simp [Except.map]

/-- What has been read, without the places. -/
def outcome (result : Except PyErr (List Stmt × List Tok)) : Option (List Stmt) :=
  result.toOption.map fun out => Stmt.unlinedAll out.1

theorem outcome_eq_some {result : Except PyErr (List Stmt × List Tok)} {stmts : List Stmt} :
    outcome result = some stmts ↔ ∃ all rest, result = .ok (all, rest) ∧ Stmt.unlinedAll all = stmts := by
  cases result with
  | error e => simp [outcome, Except.toOption]
  | ok out =>
    obtain ⟨all, rest⟩ := out
    simp [outcome, Except.toOption]

theorem statements_ends {toks : List Tok} (ends : Ends toks) {n : Nat} (some : 0 < n) (stmts : List Stmt) :
    ∃ rest, statements n stmts parser toks = .ok (stmts, rest) := by
  obtain ⟨n, rfl⟩ := Nat.exists_eq_succ_of_ne_zero (Nat.ne_zero_of_lt some)
  induction ends with
  | @eof t eof =>
    have skip : skipNl parser [t] = .ok ((), [t]) := congrArg (fun toks => Except.ok ((), toks))
      (List.dropWhile_cons_of_neg (by simp [eof]))
    rw [statements, bind_run skip, bind_run kind_cons, if_pos eof]
    exact ⟨_, rfl⟩
  | @newline t rest newline ends ih =>
    rwa [@statements_skip parser n.succ stmts _ rest (List.dropWhile_cons_of_pos (by simp [newline]))]

/-- Whatever ends the text: the same statements, if the text is a program at all. -/
theorem outcome_alike {tail tail' toks toks' : List Tok} (alike : Alike tail toks toks') (alike' : Alike tail' toks' toks)
    (ends : Ends tail) (ends' : Ends tail') {n n' : Nat} (short : toks.length < n) (short' : toks'.length < n')
    {stmts stmts' : List Stmt} (same : Stmt.unlinedAll stmts = Stmt.unlinedAll stmts') :
    outcome (statements n stmts parser toks) = outcome (statements n' stmts' parser toks') := by
  have follows {tail toks toks' : List Tok} (alike : Alike tail toks toks') (ends : Ends tail) {n n' : Nat}
      (short : toks'.length < n') {stmts stmts' : List Stmt} (same : Stmt.unlinedAll stmts = Stmt.unlinedAll stmts')
      {all : List Stmt} (ran : outcome (statements n stmts parser toks) = some all) :
      outcome (statements n' stmts' parser toks') = some all := by
    obtain ⟨read, rest, reads, rfl⟩ := outcome_eq_some.mp ran
    obtain ⟨m, read', more, unlined, arrived⟩ := statements_alike alike n short same reads
    obtain ⟨left, last⟩ := @statements_ends parser _ ends _ (Nat.zero_lt_of_lt more) read'
    exact outcome_eq_some.mpr ⟨read', left, arrived.trans last, unlined.symm⟩
  cases left : outcome (statements n stmts parser toks) with
  | some all => exact (follows alike ends short' same left).symm
  | none =>
    cases right : outcome (statements n' stmts' parser toks') with
    | none => rfl
    | some all =>
      rw [follows alike' ends' short same.symm right] at left
      cases left

end Parse

end Aclm
