import Aclm.Codegen.Consistency
import Aclm.Core.Simulation
import Aclm.Core.Spelling

/-! From the text of a program of the core language to the machine that runs its image. -/

set_option autoImplicit false

namespace Aclm.Core

open Encoder Codegen Compiler
open X64 (Cpu Machine)
open X64.Elf (LoadedAt)

theorem coreStmt_numbered {ops : List Op} (core : ∀ op ∈ ops, CoreOp op) (n : Nat) : ∀ s ∈ numbered n ops, CoreStmt s := by
  induction ops generalizing n with
  | nil => exact List.forall_mem_nil _
  | cons op ops ih =>
    obtain ⟨here, behind⟩ := List.forall_mem_cons.mp core
    exact List.forall_mem_cons.mpr ⟨here, ih behind (n + 1)⟩

/-- The image that a text of the core language is compiled to holds, where it is loaded, code that carries out every run of the
program that the text spells: from any processor that agrees with a state, it goes from the offset of the statement that
is next to the offset of the statement that is next at the end, and to a processor that agrees again. -/
theorem source_runs {U : CharClasses} {disk : Disk} {limit : Nat} {opts : Options} {ops : List Op} {file : Text}
    {image : List X64.Byte} (core : ∀ op ∈ ops, CoreOp op) (spellable : ∀ op ∈ ops, Spellable U op)
    (ok : compileSource U disk (limit + 1) opts (source ops) file = .ok image) :
    ∃ base code, LoadedAt image base code ∧ ∀ M : Machine, code <+: M.code →
      (∀ c n room, Agrees (State.ofCpu c n room) c) ∧ ∀ s t c, Run M.env.undefined (numbered 1 ops) s t → Agrees s c →
        ∃ d, M.Steps ⟨statementOffset opts ⟨numbered 1 ops⟩ s.next, c⟩ ⟨statementOffset opts ⟨numbered 1 ops⟩ t.next, d⟩ ∧
          Agrees t d := by
  rw [compileSource_source disk limit opts core spellable] at ok
  obtain ⟨⟨g, a⟩, emission, rest⟩ := bind_eq_ok.mp ok
  obtain ⟨linked, link, rest⟩ := bind_eq_ok.mp rest
  obtain ⟨-, -, written⟩ := bind_eq_ok.mp rest
  have placement := placement_of_writeImage written
  have core' := coreStmt_numbered core 1
  obtain ⟨codes, all⟩ := codes_of_core core'
  obtain ⟨g₀, prepared, top⟩ := prepare_core opts (p := ⟨numbered 1 ops⟩) core'
  obtain ⟨empty, -, -⟩ := prepare_ok prepared
  obtain ⟨g', behind, emission', script, -⟩ := emitProgram_core core' all top empty
  obtain ⟨h₀, prepared', emitted', -⟩ := emitted_ok.mp emission
  obtain rfl : g₀ = h₀ := Except.ok.inj (prepared.symm.trans prepared')
  obtain rfl : g = g' := by cases emitted'.symm.trans emission'; rfl
  have done := finished_of_emitted emission
  have deterministic : g.deterministic = g₀.deterministic := (emitProgram_emission _ _ _ emission').deterministic
  refine ⟨_, linked.code, placement.codeLoaded, fun M text => ⟨agrees_ofCpu, fun s t c run agrees => ?_⟩⟩
  obtain ⟨L, shape⟩ : ∃ L : Listing, L = ⟨g.script, g.deterministic, targetOffsets opts g a, M.base, M.env⟩ := ⟨_, rfl⟩
  have placed : Placed (numbered 1 ops) codes L := ⟨all, behind, by rw [shape]; exact script⟩
  have loaded : L.Loaded M := by
    subst shape
    exact Listing.loaded_of_link done.run link (fun name o found => done.target_label found) rfl rfl text
  have offset := statementOffset_eq prepared top placed (by rw [shape]; exact deterministic)
  subst shape
  obtain ⟨d, steps, agrees⟩ := placed.run run agrees
  exact ⟨d, by rw [offset, offset]; exact loaded.steps steps, agrees⟩

/-- Two rounds of a loop. -/
def rounds : List Op :=
  [.cpuBin .set "reg1" (.number 2), .label "loop", .cpuUnary .dec "reg1", .cmp (.reg "reg1") (.number 0), .jumpIf "neq" "loop"]

example : source rounds = ("cpu : set reg1 = 2 \n~loop \ncpu : dec reg1 \ncmp reg1 , 0 \njump_if neq ~loop \n").toList := by decide

theorem rounds_spellable : ∀ op ∈ rounds, Spellable .ascii op := by
  intro op member w inside
  simp only [rounds, List.mem_cons, List.not_mem_nil, or_false] at member
  rcases member with rfl | rfl | rfl | rfl | rfl <;>
    simp only [words, operandWords, Parse.printed, binWord, unaryWord, List.mem_cons, List.cons_append, List.nil_append,
      List.not_mem_nil, or_false] at inside
  · rcases inside with rfl | rfl | rfl | rfl | rfl | rfl
    · exact .ident rfl
    · exact .colon
    · exact .ident rfl
    · exact .ident rfl
    · exact .eq
    · exact .number 2
  · subst inside
    exact .label (.label rfl (by decide))
  · rcases inside with rfl | rfl | rfl | rfl
    · exact .ident rfl
    · exact .colon
    · exact .ident rfl
    · exact .ident rfl
  · rcases inside with rfl | rfl | rfl | rfl
    · exact .ident rfl
    · exact .ident rfl
    · exact .comma
    · exact .number 0
  · rcases inside with rfl | rfl | rfl
    · exact .ident rfl
    · exact .ident rfl
    · exact .label (.label rfl (by decide))

theorem source_runs_rounds : ∃ image base code, LoadedAt image base code ∧
    compileSource .ascii (oneFile ⟨[], []⟩) 1 plainBuild (source rounds) [] = .ok image ∧
      ∃ d, (⟨code, 0, idle⟩ : Machine).Steps ⟨0, blank⟩ ⟨37, d⟩ ∧ d.reg .rax = 0 := by
  have writes : (compileSource .ascii (oneFile ⟨[], []⟩) 1 plainBuild (source rounds) []).isOk = true := by
    rw [compileSource_source _ _ _ (by decide) rounds_spellable]
    decide
  obtain ⟨image, ok⟩ := exists_of_isOk writes
  obtain ⟨base, code, held, simulates⟩ := source_runs (by decide) rounds_spellable ok
  obtain ⟨initial, final⟩ := simulates ⟨code, 0, idle⟩ (List.prefix_refl _)
  have counted : (runFor idle.undefined (numbered 1 rounds) 9 (State.ofCpu blank 0 (by decide))).map
      (fun t => (t.next, t.regs ⟨.rax, by decide⟩)) = some (5, 0) := by decide
  obtain ⟨t, ran, result⟩ := Option.map_eq_some_iff.mp counted
  obtain ⟨d, steps, agrees⟩ := final _ t blank (run_of_runFor _ _ ran) (initial blank 0 (by decide))
  obtain ⟨next, zero⟩ := Prod.mk.inj result
  have first : statementOffset plainBuild ⟨numbered 1 rounds⟩ (State.ofCpu blank 0 (by decide)).next = 0 := by decide
  have last : statementOffset plainBuild ⟨numbered 1 rounds⟩ t.next = 37 := by rw [next]; decide
  rw [first, last] at steps
  exact ⟨image, base, code, held, ok, d, steps, (agrees.regs ⟨.rax, by decide⟩).trans zero⟩

end Aclm.Core
