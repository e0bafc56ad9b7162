import Aclm.Codegen.FnContext
import Aclm.Spans

/-! The teaching listing: the code between the offset noted at each statement and that of the next one. -/

set_option autoImplicit false

namespace Aclm.Codegen

open Encoder

/-- The spans that `_build_listing` writes, with the lines of their statements. -/
def teachSpans (g : CodeGenerator) (code : List X64.Byte) : List (Span Int) := filled (spans g.teachMap code.length)

/-! ### What is noted -/

/-- The line that a step notes. -/
def Step.line? : Step → Option Int
  | .op line _ | .enter line _ _ _ => some line
  | _ => none

/-- The entry of a step that begins in `g`. -/
def Step.entries (s : Step) (g : CodeGenerator) : List (Int × Nat) :=
  if g.listing then s.line?.toList.map fun line => (line, g.codeLength) else []

/-- A step notes the offset at which it begins, and then emits its code. -/
structure Notes (s : Step) (g g' : CodeGenerator) : Prop where
  teachMap : g'.teachMap = g.teachMap ++ s.entries g
  listing : g'.listing = g.listing
  longer : g.codeLength ≤ g'.codeLength

theorem Unnoted.longer {g g' : CodeGenerator} (unnoted : Unnoted g g') : g.codeLength ≤ g'.codeLength := by
  obtain ⟨calls, script⟩ := unnoted.script
  rw [CodeGenerator.codeLength, CodeGenerator.codeLength, unnoted.deterministic, ← script, size_append]
  exact Nat.le_add_right _ _

theorem Unnoted.notes {s : Step} {g g' : CodeGenerator} (unnoted : Unnoted g g') (none : s.line? = none) : Notes s g g' := by
  refine ⟨?_, unnoted.listing, unnoted.longer⟩
  rw [unnoted.teachMap, Step.entries, none]
  simp

theorem note_notes {s : Step} {line : Int} (lined : s.line? = some line) {g m g' : CodeGenerator}
    (noted : note line g = .ok () m) (unnoted : Unnoted m g') : Notes s g g' := by
  rw [note, get_bind_ok] at noted
  have entries : s.entries g = if g.listing then [(line, g.codeLength)] else [] := by
    rw [Step.entries, lined]
    rfl
  split at noted
  · next listing =>
    obtain rfl := modify_ok.mp noted
    refine ⟨?_, unnoted.listing, unnoted.longer⟩
    rw [unnoted.teachMap, entries, if_pos listing]
  · next quiet =>
    obtain ⟨-, rfl⟩ := pure_ok.mp noted
    refine ⟨?_, unnoted.listing, unnoted.longer⟩
    rw [unnoted.teachMap, entries, if_neg quiet, List.append_nil]

theorem Step.emit_notes (s : Step) {g g' : CodeGenerator} (ok : s.emit g = .ok () g') : Notes s g g' := by
  cases s with
  | op line op =>
    obtain ⟨_, m, noted, emission⟩ := bind_ok.mp ok
    exact note_notes rfl noted (emitOp_frozen emission).toUnnoted
  | enter line name args locals =>
    obtain ⟨_, m, noted, entry⟩ := bind_ok.mp ok
    simp only [enterFn, asm_bind_ok, modify_ok] at entry
    refine note_notes rfl noted ⟨?_, ?_, ?_, ?_⟩
    · rw [entry]; rfl
    · rw [entry]; rfl
    · rw [entry]; rfl
    · rw [entry]
      simp
  | leave =>
    simp only [Step.emit, leaveFn, modify_bind_ok, asm_ok] at ok
    obtain rfl := ok
    exact Unnoted.notes ⟨rfl, rfl, rfl, List.prefix_append _ _⟩ rfl
  | finish stmts => exact (emitEnd_frozen ok).toUnnoted.notes rfl

/-! ### The map of a whole emission -/

/-- The offsets noted so far go up, to at most where the code ends. -/
def Charted (g : CodeGenerator) : Prop := Ascending g.teachMap g.codeLength

theorem Notes.charted {s : Step} {g g' : CodeGenerator} (notes : Notes s g g') (charted : Charted g) : Charted g' := by
  rw [Charted, notes.teachMap, Step.entries]
  cases g.listing with
  | false =>
    rw [if_neg Bool.false_ne_true, List.append_nil]
    exact charted.mono notes.longer
  | true =>
    rw [if_pos rfl]
    cases s.line? with
    | none =>
      rw [Option.toList_none, List.map_nil, List.append_nil]
      exact charted.mono notes.longer
    | some line => exact (charted.snoc line).mono notes.longer

/-- Later steps note behind what was noted before. -/
theorem runSteps_notes {steps : List Step} {g g' : CodeGenerator} (ok : runSteps steps g = .ok () g') (charted : Charted g) :
    Charted g' ∧ g.teachMap <+: g'.teachMap := by
  induction steps generalizing g with
  | nil =>
    rw [(pure_ok.mp ok).2]
    exact ⟨charted, List.prefix_refl _⟩
  | cons s steps ih =>
    obtain ⟨_, m, first, later⟩ := bind_ok.mp ok
    have notes := s.emit_notes first
    obtain ⟨charted', more⟩ := ih later (notes.charted charted)
    exact ⟨charted', (notes.teachMap ▸ List.prefix_append _ _ : g.teachMap <+: m.teachMap).trans more⟩

/-- The first entry of a listing is that of the first step that has a line. -/
theorem runSteps_first {line : Int} {s : Step} (lined : s.line? = some line) {steps : List Step} {g g' : CodeGenerator}
    (ok : runSteps (s :: steps) g = .ok () g') (listing : g.listing = true) (charted : Charted g) (none : g.teachMap = []) :
    ∃ rest, g'.teachMap = (line, g.codeLength) :: rest := by
  obtain ⟨_, m, first, later⟩ := bind_ok.mp ok
  have notes := s.emit_notes first
  obtain ⟨-, rest, more⟩ := runSteps_notes later (notes.charted charted)
  refine ⟨rest, ?_⟩
  rw [← more, notes.teachMap, none, Step.entries, if_pos listing, lined]
  rfl

/-! ### The first entry -/

/-- With a statement outside all functions, the first step is such a statement. -/
theorem programSteps_main {stmts : List Stmt} (main : stmts.all isFn = false) :
    ∃ line op rest, programSteps stmts = .op line op :: rest := by
  obtain ⟨s, member, other⟩ := List.all_eq_false.mp main
  have kept : s ∈ stmts.filter fun s => !isFn s := List.mem_filter.mpr ⟨member, by simpa using other⟩
  cases front : stmts.filter fun s => !isFn s with
  | nil => exact absurd kept (front ▸ List.not_mem_nil)
  | cons first rest =>
    have among : first ∈ stmts.filter fun s => !isFn s := front ▸ List.mem_cons_self
    cases first with
    | op line op => exact ⟨line, op, _, by rw [programSteps, front]; rfl⟩
    | fnDef => cases (List.mem_filter.mp among).2

/-- Without one, the code begins with the end of the main program. -/
theorem programSteps_fns {stmts : List Stmt} (fns : stmts.all isFn = true) (nonempty : stmts ≠ []) :
    ∃ line s rest, programSteps stmts = .finish stmts :: s :: rest ∧ s.line? = some line := by
  have all := List.all_eq_true.mp fns
  have none : stmts.filter (fun s => !isFn s) = [] := List.filter_eq_nil_iff.mpr fun s member => by simp [all s member]
  rw [programSteps, none, List.filter_eq_self.mpr all]
  cases stmts with
  | nil => exact absurd rfl nonempty
  | cons s rest =>
    cases s with
    | op line op => cases all _ List.mem_cons_self
    | fnDef line name args body locals => exact ⟨line, _, _, rfl, rfl⟩

/-- Functions alone do not end the program, nor do they make it one for bare metal. -/
theorem emitEnd_fns {stmts : List Stmt} (fns : stmts.all isFn = true) {g g' : CodeGenerator}
    (target : g.baremetal = stmts.any baremetalStmt) (ok : emitEnd stmts g = .ok () g') :
    g' = g.withScript (g.script ++ exitStub) := by
  have all := List.all_eq_true.mp fns
  have linux : stmts.any baremetalStmt = false := List.any_eq_false.mpr fun s member => by
    cases s with
    | op => cases all _ member
    | fnDef => exact Bool.false_ne_true
  have ends : endsExit stmts = false := by
    rw [endsExit]
    cases last : stmts.getLast? with
    | none => rfl
    | some s =>
      cases s with
      | op => cases all _ (List.mem_of_getLast? last)
      | fnDef => rfl
  rw [emitEnd, get_bind_ok, target, linux, ends] at ok
  exact asm_ok.mp ok

theorem exitStub_positive (deterministic : Bool) : 0 < size deterministic exitStub := by
  cases deterministic <;> decide

/-- The offsets of a listing go up, and start with the code exactly if there is a statement outside all functions. -/
theorem teachMap_ascending {opts : Options} {p : Program} {g : CodeGenerator} {linked : Assembler}
    (teach : opts.listing = true) (nonempty : p.statements ≠ []) (checked : Checked opts p g linked) :
    Ascending g.teachMap linked.code.length ∧
      ((g.teachMap.map Prod.snd).headD linked.code.length = 0 ↔ p.statements.all isFn = false) := by
  obtain ⟨a, emission, joined, -⟩ := checked
  obtain ⟨g₀, prepared, ran, assembled⟩ := emitted_ok.mp emission
  rw [emitProgram_steps] at ran
  obtain ⟨-, unmapped, listing⟩ := prepare_fresh prepared
  have length : linked.code.length = g.codeLength := (Assembler.link_fields assembled joined).1.trans (Assembler.run_length assembled)
  have start : g₀.codeLength = 0 := by rw [CodeGenerator.codeLength, (prepare_ok prepared).1, size_nil]
  have fresh : Charted g₀ := by
    rw [Charted, unmapped]
    exact .nil _
  obtain ⟨charted, -⟩ := runSteps_notes ran fresh
  refine ⟨by rw [length]; exact charted, ?_⟩
  constructor
  · intro first
    by_contra fns
    have fns : p.statements.all isFn = true := by simpa using fns
    obtain ⟨line, s, rest, split, lined⟩ := programSteps_fns fns nonempty
    rw [split] at ran
    obtain ⟨_, m, ended, later⟩ := bind_ok.mp ran
    -- The code that ends the program is there before the first function is noted.
    have quiet := (emitEnd_frozen ended).toUnnoted
    obtain ⟨more, entries⟩ := runSteps_first lined later ((quiet.listing.trans listing).trans teach)
      (((Step.finish p.statements).emit_notes ended).charted fresh) (quiet.teachMap.trans unmapped)
    rw [entries, List.map_cons, List.headD_cons] at first
    have stub := emitEnd_fns fns (prepare_ok prepared).2.2 ended
    rw [stub, (prepare_ok prepared).1] at first
    exact absurd first (exitStub_positive g₀.deterministic).ne'
  · intro main
    obtain ⟨line, op, rest, split⟩ := programSteps_main main
    rw [split] at ran
    obtain ⟨more, entries⟩ := runSteps_first rfl ran (listing.trans teach) fresh unmapped
    rw [entries, List.map_cons, List.headD_cons, start]

/-- The spans of a listing lose no byte, and name none twice, exactly if there is a statement outside all functions. -/
theorem teachSpans_partition_iff {opts : Options} {p : Program} {g : CodeGenerator} {linked : Assembler}
    (teach : opts.listing = true) (nonempty : p.statements ≠ []) (checked : Checked opts p g linked) :
    Partitions (teachSpans g linked.code) linked.code ↔ p.statements.all isFn = false := by
  obtain ⟨ascending, first⟩ := teachMap_ascending teach nonempty checked
  rw [teachSpans, spans_partition_iff ascending, first]

theorem exists_checked {opts : Options} {p : Program} (ok : (generate opts p).isOk = true) :
    ∃ g linked, Checked opts p g linked := by
  obtain ⟨image, ok⟩ := exists_of_isOk ok
  obtain ⟨⟨g, a⟩, emission, rest⟩ := bind_eq_ok.mp ok
  obtain ⟨linked, joined, rest⟩ := bind_eq_ok.mp rest
  obtain ⟨_, passed, -⟩ := bind_eq_ok.mp rest
  exact ⟨g, linked, a, emission, joined, passed⟩

/-- A function and a call of it. -/
theorem teachSpans_partition_call : ∃ p g linked, Compiler.programOf .ascii "call ~f\nfn:f\nret\nend:fn".toList "/f".toList = .ok p ∧
    Checked ⟨false, false, true⟩ p g linked ∧ Partitions (teachSpans g linked.code) linked.code := by
  have found : (match Compiler.programOf .ascii "call ~f\nfn:f\nret\nend:fn".toList "/f".toList with
      | .ok p => (generate ⟨false, false, true⟩ p).isOk && !p.statements.isEmpty && !p.statements.all isFn
      | .error _ => false) = true := by decide +kernel
  split at found
  · next p program =>
    simp only [Bool.and_eq_true, Bool.not_eq_true', List.isEmpty_eq_false_iff] at found
    obtain ⟨⟨image, nonempty⟩, main⟩ := found
    obtain ⟨g, linked, checked⟩ := exists_checked image
    exact ⟨p, g, linked, program, checked, (teachSpans_partition_iff rfl nonempty checked).mpr main⟩
  · cases found

/-- A function on its own: the exit before it is in no span. -/
theorem teachSpans_partition_wrong : ∃ p g linked, Compiler.programOf .ascii "fn:f\nret\nend:fn".toList "/f".toList = .ok p ∧
    p.statements ≠ [] ∧ Checked ⟨false, false, true⟩ p g linked ∧ ¬ Partitions (teachSpans g linked.code) linked.code := by
  have found : (match Compiler.programOf .ascii "fn:f\nret\nend:fn".toList "/f".toList with
      | .ok p => (generate ⟨false, false, true⟩ p).isOk && !p.statements.isEmpty && p.statements.all isFn
      | .error _ => false) = true := by decide +kernel
  split at found
  · next p program =>
    simp only [Bool.and_eq_true, Bool.not_eq_true', List.isEmpty_eq_false_iff] at found
    obtain ⟨⟨image, nonempty⟩, fns⟩ := found
    obtain ⟨g, linked, checked⟩ := exists_checked image
    refine ⟨p, g, linked, program, nonempty, checked, fun partitions => ?_⟩
    obtain ⟨ascending, first⟩ := teachMap_ascending rfl nonempty checked
    have main := first.mp ((spans_partition_iff ascending).mp partitions)
    rw [fns] at main
    cases main
  · cases found

end Aclm.Codegen
