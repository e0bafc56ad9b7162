import Aclm.Codegen.Needs
import Aclm.Encoder.Listing

/-! Whether all that the code of a program refers to is defined when it is linked. -/

set_option autoImplicit false

namespace Aclm.Codegen

open X64 (Reg)
open Encoder

/-! ### Whole programs -/

/-- What the statements may leave to others to define. -/
def AllowedIn (stmts : List Stmt) (target : String) : Prop := ∃ op ∈ opsOf stmts, Allowed op target

theorem note_refers {K : String → Prop} (line : Int) : Refers K [] [] (note line) :=
  .bind .get fun _ => .ite (.modify (fun _ => rfl) (fun _ => rfl) fun _ => rfl) (.pure _)

theorem enterFn_refers {K : String → Prop} (name : String) (args : List String) (locals : List (String × Int)) :
    Refers K [] [] (enterFn name args locals) :=
  .seq (.calls trivial (by simp)) <| .seq (.plain (map_push_within _)) <| .seq (.plain (ite_within trivial trivial))
    (.modify (fun _ => rfl) (fun _ => rfl) fun _ => rfl)

theorem leaveFn_refers {K : String → Prop} : Refers K [] [] leaveFn :=
  .seq (.modify (fun _ => rfl) (fun _ => rfl) fun _ => rfl) (.plain trivial)

mutual

theorem emit_refers {K : String → Prop} : (s : Stmt) → (∀ op ∈ s.ops, ∀ t, Allowed op t → K t) →
    Refers K [] (s.ops.flatMap gives) (emit s)
  | .op line op, allowed => by
    have only : (Stmt.op line op).ops.flatMap gives = gives op := by simp [Stmt.ops]
    rw [only]
    unfold emit
    exact .seq (note_refers line) ((emitOp_refers op).mono (allowed op List.mem_cons_self))
  | .fnDef line name args body locals, allowed => by
    have only : (Stmt.fnDef line name args body locals).ops.flatMap gives = (opsOf body).flatMap gives ++ [] := by
      simp [Stmt.ops]
    rw [only]
    unfold emit
    exact .seq (note_refers line) <| .seq (enterFn_refers name args locals) <|
      .append (emitAll_refers body allowed) leaveFn_refers

theorem emitAll_refers {K : String → Prop} : (stmts : List Stmt) → (∀ op ∈ opsOf stmts, ∀ t, Allowed op t → K t) →
    Refers K [] ((opsOf stmts).flatMap gives) (emitAll stmts)
  | [], _ => by
    unfold emitAll
    exact .pure _
  | s :: rest, allowed => by
    have both : (opsOf (s :: rest)).flatMap gives = s.ops.flatMap gives ++ (opsOf rest).flatMap gives := by simp [opsOf]
    rw [both]
    unfold emitAll
    exact .append (emit_refers s fun op member => allowed op (by simp [opsOf, member]))
      (emitAll_refers rest fun op member => allowed op (by simp [opsOf, member]))

end

theorem emitEnd_refers {K : String → Prop} (stmts : List Stmt) : Refers K [] [] (emitEnd stmts) :=
  .bind .get fun _ => .ite (.pure _) (.plain trivial)

theorem opsOf_filter {op : Op} {stmts : List Stmt} {keep : Stmt → Bool} (member : op ∈ opsOf (stmts.filter keep)) :
    op ∈ opsOf stmts := by
  obtain ⟨s, kept, inside⟩ := mem_opsOf.mp member
  exact mem_opsOf.mpr ⟨s, List.mem_of_mem_filter kept, inside⟩

/-- A whole emission refers to nothing but what it defines and what its statements need; it reserves all that they give. -/
theorem emitProgram_made {stmts : List Stmt} {g g' : CodeGenerator} (stubs : Stubs g)
    (ok : emitProgram stmts g = .ok () g') : Made (AllowedIn stmts) [] ((opsOf stmts).flatMap gives) g g' := by
  have half (keep : Stmt → Bool) : Refers (AllowedIn stmts) [] ((opsOf (stmts.filter keep)).flatMap gives)
      (emitAll (stmts.filter keep)) :=
    emitAll_refers _ fun op member t allowed => ⟨op, opsOf_filter member, allowed⟩
  have made := Refers.append (half _) (.append (emitEnd_refers stmts) (half _)) _ _ _ stubs ok
  have given (name : String) : name ∈ (opsOf (stmts.filter fun s => !isFn s)).flatMap gives ++
      ([] ++ (opsOf (stmts.filter isFn)).flatMap gives) ↔ name ∈ (opsOf stmts).flatMap gives := by
    simp only [List.nil_append, List.mem_append, List.mem_flatMap]
    constructor
    · rintro (⟨op, member, gives⟩ | ⟨op, member, gives⟩) <;> exact ⟨op, opsOf_filter member, gives⟩
    · rintro ⟨op, member, gives⟩
      obtain ⟨s, listed, inside⟩ := mem_opsOf.mp member
      cases fn : isFn s with
      | false => exact .inl ⟨op, mem_opsOf.mpr ⟨s, List.mem_filter.mpr ⟨listed, by simp [fn]⟩, inside⟩, gives⟩
      | true => exact .inr ⟨op, mem_opsOf.mpr ⟨s, List.mem_filter.mpr ⟨listed, fn⟩, inside⟩, gives⟩
  exact { made with
    cells := fun name member => made.cells name ((given name).mpr member)
    shared := fun name member placed => (made.shared name member placed).imp_right (given name).mp }

theorem Mentions.kept {g g' : CodeGenerator} {target : String} (mentions : Mentions g target) (more : Extends g g') :
    Mentions g' target := by
  obtain ⟨c, member, refers⟩ := mentions
  obtain ⟨calls, script, -⟩ := more.script
  exact ⟨c, script ▸ List.mem_append_left _ member, refers⟩

mutual

theorem emit_mentions : (s : Stmt) → {g g' : CodeGenerator} → emit s g = .ok () g' → {op : Op} → op ∈ s.ops →
    {name : String} → name ∈ needs op → Mentions g' (data name)
  | .op line op, g, g', ok, op', member, name, needed => by
    obtain rfl := List.mem_singleton.mp member
    unfold emit at ok
    obtain ⟨_, m, -, ok⟩ := bind_ok.mp ok
    exact emitOp_mentions ok needed
  | .fnDef line fn args body locals, g, g', ok, op, member, name, needed => by
    unfold emit at ok
    obtain ⟨_, m₁, -, ok⟩ := bind_ok.mp ok
    obtain ⟨_, m₂, -, ok⟩ := bind_ok.mp ok
    obtain ⟨_, m₃, inside, left⟩ := bind_ok.mp ok
    exact (emitAll_mentions body inside member needed).kept (leaveFn_emission _ _ left)

theorem emitAll_mentions : (stmts : List Stmt) → {g g' : CodeGenerator} → emitAll stmts g = .ok () g' → {op : Op} →
    op ∈ opsOf stmts → {name : String} → name ∈ needs op → Mentions g' (data name)
  | [], _, _, _, _, member, _, _ => by cases member
  | s :: rest, g, g', ok, op, member, name, needed => by
    unfold emitAll at ok
    obtain ⟨_, m, first, later⟩ := bind_ok.mp ok
    rcases List.mem_append.mp member with member | member
    · exact (emit_mentions s first member needed).kept (emitAll_emission rest _ _ later)
    · exact emitAll_mentions rest later member needed

end

theorem emitProgram_mentions {stmts : List Stmt} {g g' : CodeGenerator} (ok : emitProgram stmts g = .ok () g') {op : Op}
    (member : op ∈ opsOf stmts) {name : String} (needed : name ∈ needs op) : Mentions g' (data name) := by
  obtain ⟨_, m₁, top, ok⟩ := bind_ok.mp ok
  obtain ⟨_, m₂, ending, fns⟩ := bind_ok.mp ok
  have ends : Emits (emitEnd stmts) := .bind .get fun _ => .ite (.pure _) (.calls trivial)
  obtain ⟨s, listed, inside⟩ := mem_opsOf.mp member
  cases fn : isFn s with
  | false =>
    have here : op ∈ opsOf (stmts.filter fun s => !isFn s) :=
      mem_opsOf.mpr ⟨s, List.mem_filter.mpr ⟨listed, by simp [fn]⟩, inside⟩
    exact ((emitAll_mentions _ top here needed).kept (ends.emission _ _ ending)).kept (emitAll_emission _ _ _ fns)
  | true => exact emitAll_mentions _ fns (mem_opsOf.mpr ⟨s, List.mem_filter.mpr ⟨listed, fn⟩, inside⟩) needed

/-! ### The data at the start -/

/-- The data that a statement declares. -/
def declares : Stmt → List String
  | .op _ (.dataAlloc name _) | .op _ (.dataBytes name _) | .op _ (.dataConst name (.number _))
  | .op _ (.dataConst name (.string _)) => [name]
  | _ => []

/-- A cell that the statements of a program, or the search for its top-level statements, provide. -/
def Provides (p : Program) (cell : String) : Prop :=
  (∃ s ∈ p.statements, cell ∈ declares s) ∨ (∃ op ∈ p.ops, cell ∈ gives op) ∨
    (cell = "__timespec" ∧ p.statements.any pulseStmt = true) ∨ (cell = "__thr_futex" ∧ p.statements.any threadStmt = true)

/-- Every cell that the code of a statement needs, wherever the statement stands, is provided. -/
def Provided (p : Program) : Prop := ∀ op ∈ p.ops, ∀ cell ∈ needs op, Provides p cell

theorem contains_set {layout : Dict Int} {name other : String} {off : Int} :
    (layout.set name off).contains other = true ↔ layout.contains other = true ∨ other = name := by
  rw [Dict.contains, Dict.get?_set]
  by_cases same : name = other
  · simp [same]
  · simp [same, Dict.contains, Ne.symm same]

theorem collectDatum_layout {g g' : CodeGenerator} {off off' : Int} {op : Op}
    (ok : collectDatum g off op = .ok (g', off')) (line : Int) (name : String) :
    (g'.dataLayout.contains name = true ↔ g.dataLayout.contains name = true ∨ name ∈ declares (.op line op)) ∧
      g'.emitted = g.emitted := by
  cases op with
  | dataAlloc n size =>
    obtain ⟨k, -, placed⟩ := bind_eq_ok.mp ok
    cases placed
    exact ⟨contains_set.trans (or_congr_right List.mem_singleton.symm), rfl⟩
  | dataBytes n values =>
    cases ok
    exact ⟨contains_set.trans (or_congr_right List.mem_singleton.symm), rfl⟩
  | dataConst n value =>
    cases value with
    | number v =>
      cases ok
      exact ⟨contains_set.trans (or_congr_right List.mem_singleton.symm), rfl⟩
    | string v =>
      cases ok
      exact ⟨contains_set.trans (or_congr_right List.mem_singleton.symm), rfl⟩
  | _ =>
    cases ok
    exact ⟨by simp [declares], rfl⟩

theorem collectData_layout {stmts : List Stmt} {g g' : CodeGenerator} {off : Int} (ok : collectData stmts g off = .ok g')
    (name : String) :
    (g'.dataLayout.contains name = true ↔ g.dataLayout.contains name = true ∨ ∃ s ∈ stmts, name ∈ declares s) ∧
      g'.emitted = g.emitted := by
  induction stmts generalizing g off with
  | nil =>
    cases ok
    simp
  | cons s rest ih =>
    cases s with
    | fnDef =>
      obtain ⟨layout, emitted⟩ := ih ok
      exact ⟨layout.trans (by simp [declares]), emitted⟩
    | op line op =>
      obtain ⟨⟨m, off'⟩, first, later⟩ := bind_eq_ok.mp ok
      obtain ⟨layout, emitted⟩ := collectDatum_layout first line name
      obtain ⟨layout', emitted'⟩ := ih later
      exact ⟨layout'.trans (by rw [layout]; simp [or_assoc]), emitted'.trans emitted⟩

theorem addCell_layout (cell : String) (n : Nat) (needed : Bool) (g : CodeGenerator) (name : String) :
    ((addCell cell n needed g).dataLayout.contains name = true ↔
      g.dataLayout.contains name = true ∨ (name = cell ∧ needed = true)) ∧ (addCell cell n needed g).emitted = g.emitted := by
  cases needed with
  | false => exact ⟨by simp [addCell], rfl⟩
  | true => exact ⟨contains_set.trans (by simp), rfl⟩

/-- The data at the start are the declared ones and the cells for which there is a top-level statement. -/
theorem prepare_layout {opts : Options} {p : Program} {g : CodeGenerator} (ok : prepare opts p = .ok g) (name : String) :
    (g.dataLayout.contains name = true ↔ (∃ s ∈ p.statements, name ∈ declares s) ∨
      (name = "__timespec" ∧ p.statements.any pulseStmt = true) ∨
      (name = "__thr_futex" ∧ p.statements.any threadStmt = true)) ∧ g.emitted = [] := by
  obtain ⟨m, collected, rest⟩ := bind_eq_ok.mp ok
  cases rest
  obtain ⟨layout, emitted⟩ := collectData_layout collected name
  obtain ⟨time, time'⟩ := addCell_layout "__timespec" 16 (p.statements.any pulseStmt)
    { m with deterministic := p.statements.any deterministicStmt } name
  obtain ⟨futex, futex'⟩ := addCell_layout "__thr_futex" 24 (p.statements.any threadStmt) (addCell "__timespec" 16
    (p.statements.any pulseStmt) { m with deterministic := p.statements.any deterministicStmt }) name
  refine ⟨futex.trans ?_, futex'.trans (time'.trans emitted)⟩
  rw [time, layout, or_assoc]
  exact or_congr_left (by simp [CodeGenerator.new, Dict.contains, Dict.get?])

/-! ### Closed references -/

/-- Every name that the code refers to is linked to something. -/
def Closed (opts : Options) (g : CodeGenerator) (a : Assembler) : Prop :=
  ∀ r ∈ a.relocs, (targetOffsets opts g a).contains r.target = true

/-- The references to labels and data that the user wrote are among those. -/
def UserClosed (opts : Options) (p : Program) (g : CodeGenerator) (a : Assembler) : Prop :=
  ∀ r ∈ a.relocs, (∃ op ∈ p.ops, r.target ∈ written op) → (targetOffsets opts g a).contains r.target = true

section Closed

variable {opts : Options} {p : Program} {g : CodeGenerator} {a : Assembler}

/-- What is defined is linked. -/
theorem Here.linked (done : Finished g a) {target : String} (here : Here g target) :
    (targetOffsets opts g a).contains target = true := by
  rcases here with label | ⟨name, placed, rfl⟩
  · obtain ⟨before, after, shape⟩ := List.append_of_mem label
    exact Option.isSome_iff_exists.mpr ⟨_, done.target_label (Listing.run_defines done.run shape)⟩
  · obtain ⟨off, found⟩ := Option.isSome_iff_exists.mp placed
    exact Option.isSome_iff_exists.mpr ⟨_, done.target_data found⟩

/-- A datum is linked where it has a place only. -/
theorem placed_of_linked (done : Finished g a) {name : String} (linked : (targetOffsets opts g a).contains (data name) = true) :
    g.dataLayout.contains name = true := by
  obtain ⟨v, found⟩ := Option.isSome_iff_exists.mp linked
  rcases target_cases found with ⟨o, label⟩ | ⟨key, off, same, entry⟩
  · have code := done.codeLabel label
    rw [CodeLabel, data_startsWith] at code
    cases code
  · rw [data_injective same]
    exact Option.isSome_iff_exists.mpr ⟨off, entry⟩

theorem relocsFrom_target (deterministic : Bool) (calls : List Call) (o : Nat) (target : String) :
    (∃ r ∈ relocsFrom deterministic o calls, r.target = target) ↔ ∃ c ∈ calls, c.fixup = some target := by
  induction calls generalizing o with
  | nil => simp [relocsFrom]
  | cons c calls ih => cases found : c.fixup <;> simp [relocsFrom, found, ih]

/-- The references of the code are the names that its calls refer to. -/
theorem Finished.reloc_iff (done : Finished g a) (target : String) :
    (∃ r ∈ a.relocs, r.target = target) ↔ Mentions g target := by
  rw [(Assembler.run_code done.run).2.1]
  exact relocsFrom_target _ _ _ target

/-- A cell is placed at the end exactly if it is provided. -/
theorem placed_iff {g₀ : CodeGenerator} (prepared : prepare opts p = .ok g₀)
    (made : Made (AllowedIn p.statements) [] (p.ops.flatMap gives) g₀ g) {cell : String} (shared : cell ∈ SHARED) :
    g.dataLayout.contains cell = true ↔ Provides p cell := by
  have start := (prepare_layout prepared cell).1
  have given : cell ∈ p.ops.flatMap gives ↔ ∃ op ∈ p.ops, cell ∈ gives op := List.mem_flatMap
  have placed : g.dataLayout.contains cell = true ↔ g₀.dataLayout.contains cell = true ∨ cell ∈ p.ops.flatMap gives :=
    ⟨made.shared cell shared, fun known => known.elim (made.kept cell) (made.cells cell)⟩
  rw [placed, start, given, Provides]
  constructor
  · rintro ((declared | searched) | reserved)
    · exact .inl declared
    · exact .inr (.inr searched)
    · exact .inr (.inl reserved)
  · rintro (declared | reserved | searched)
    · exact .inl (.inl declared)
    · exact .inr reserved
    · exact .inl (.inr searched)

theorem needs_shared {op : Op} {cell : String} (needed : cell ∈ needs op) : cell ∈ SHARED := by
  cases op with
  | pulseSleep | pulseNow | threadSpawn | threadJoin | threadJoinAll | threadExit | kernelHeapAlloc | kernelDmaRingPush
  | kernelDmaRingPop =>
    obtain rfl := List.mem_singleton.mp needed
    decide
  | _ => cases needed

/-- Where all that the user named is defined, the references of the code are closed exactly if every cell that a statement
needs is provided. -/
theorem closed_iff (emission : emitted opts p = .ok (g, a)) (user : UserClosed opts p g a) :
    Closed opts g a ↔ Provided p := by
  obtain ⟨g₀, prepared, emitted, -⟩ := emitted_ok.mp emission
  have done := finished_of_emitted emission
  have stubs : Stubs g₀ := by
    intro stub member
    rw [(prepare_layout prepared "").2] at member
    cases member
  have made := emitProgram_made stubs emitted
  constructor
  · intro closed op member cell needed
    obtain ⟨r, listed, target⟩ := (done.reloc_iff _).mpr (emitProgram_mentions emitted member needed)
    have linked := closed r listed
    rw [target] at linked
    exact (placed_iff prepared made (needs_shared needed)).mp (placed_of_linked done linked)
  · intro provided r listed
    obtain ⟨c, member, refers⟩ := (done.reloc_iff r.target).mp ⟨r, listed, rfl⟩
    obtain ⟨calls, script, all⟩ := made.script
    rw [script, (prepare_ok prepared).1, List.nil_append] at member
    rcases all c member _ refers with ⟨op, inside, written | ⟨cell, needed, target⟩⟩ | here
    · exact user r listed ⟨op, inside, written⟩
    · rw [target]
      have placed := (placed_iff prepared made (needs_shared needed)).mpr (provided op inside cell needed)
      exact Here.linked done (.inr ⟨cell, placed, rfl⟩)
    · exact here.linked done

theorem patchAll_closed {offs : Dict Int} (rs : List Reloc) (known : ∀ r ∈ rs, offs.contains r.target = true)
    (code : List X64.Byte) (name : String) :
    Assembler.patchAll offs rs code ≠ .error (.valueError ("undefined label referenced: " ++ name)) := by
  induction rs generalizing code with
  | nil => exact nofun
  | cons r rs ih =>
    obtain ⟨target, found⟩ := Option.isSome_iff_exists.mp (known r List.mem_cons_self)
    have shown : Assembler.displacement offs r = s32 (target - (r.offset + 4)) := by
      unfold Assembler.displacement
      rw [found]
    unfold Assembler.patchAll
    rw [shown]
    cases field : s32 (target - (r.offset + 4)) with
    | ok bytes => exact ih (fun r member => known r (List.mem_cons_of_mem _ member)) _
    | error e =>
      unfold s32 at field
      split at field
      · cases field
        intro same
        have messages : ("value " ++ toString (target - (r.offset + 4)) ++ " does not fit in imm32").toList.head? =
            ("undefined label referenced: " ++ name).toList.head? := congrArg (fun s : String => s.toList.head?) (PyErr.valueError.inj (Except.error.inj same))
        simp at messages
      · cases field

/-- With closed references, linking does not fail for a name without an offset. -/
theorem Closed.link (closed : Closed opts g a) (name : String) :
    a.link (targetOffsets opts g a) ≠ .error (.valueError ("undefined label referenced: " ++ name)) := by
  intro failed
  have inner := patchAll_closed a.relocs closed a.code name
  unfold Assembler.link at failed
  cases patched : Assembler.patchAll (targetOffsets opts g a) a.relocs a.code with
  | ok code => rw [patched] at failed; cases failed
  | error e =>
    rw [patched] at failed
    cases failed
    exact inner patched

end Closed

/-- Two waits, one of them inside a function, and a heap. -/
def waits : Program :=
  ⟨[.op 1 (.pulseNow "reg1"), .op 2 (.kernelHeapInit 64),
    .fnDef 3 "f" [] [.op 4 (.pulseSleep (.number 5)), .op 5 (.kernelHeapAlloc "reg2" (.number 8))] []]⟩

theorem closed_iff_waits : ∃ g a, emitted ⟨false, false, false⟩ waits = .ok (g, a) ∧
    UserClosed ⟨false, false, false⟩ waits g a ∧ (Closed ⟨false, false, false⟩ g a ↔ Provided waits) := by
  have completes : (emitted ⟨false, false, false⟩ waits).isOk = true := by decide
  obtain ⟨⟨g, a⟩, emission⟩ := exists_of_isOk completes
  have user : UserClosed ⟨false, false, false⟩ waits g a := by
    rintro r - ⟨op, member, named⟩
    have none : ∀ op ∈ waits.ops, written op = [] := by decide
    rw [none op member] at named
    cases named
  exact ⟨g, a, emission, user, closed_iff emission user⟩

/-- The time is read in a function only: the generator does not look there for what the code will need. -/
theorem closed_wrong :
    (emitted ⟨false, false, false⟩ ⟨[.fnDef 1 "f" [] [.op 2 (.pulseNow "reg1")] []]⟩).map
        (fun r => r.2.link (targetOffsets ⟨false, false, false⟩ r.1 r.2)) =
      .ok (.error (.valueError "undefined label referenced: __data___timespec")) := by
  decide

end Aclm.Codegen
