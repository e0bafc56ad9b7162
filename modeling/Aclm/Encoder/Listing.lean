import Aclm.Encoder.Stream
import Aclm.X64.Machine

/-! The assembler's calls read as an assembly language: positions are call indices and jumps go to
the labels by name. Every step of a listing is carried out by the machine that has the linked text. -/

set_option autoImplicit false

namespace Aclm.Encoder

open X64 (Byte Word Reg Cond Instr Spells Cpu Env Machine execAll leBytes ofSigned)

/-- Calls with the addresses their text is linked for. -/
structure Listing where
  calls : List Call
  deterministic : Bool
  offs : Dict Int
  base : Word
  env : Env

/-- What a call other than a transfer does. -/
def Call.effect (env : Env) (address : String → Word) (call : Call) (c : Cpu) : Option Cpu :=
  match call with
  | leaRegLabel dst target => some (c.set dst (address target))
  | call => if call.Modelled ∧ call.fixup = none then execAll env (call.instrs 0) c else none

def effects (env : Env) (address : String → Word) : List Call → Cpu → Option Cpu
  | [], c => some c
  | call :: calls, c => (call.effect env address c).bind (effects env address calls)

namespace Listing

variable (L : Listing)

/-- The offset of a position in the text. -/
def offset (i : Nat) : Nat := size L.deterministic (L.calls.take i)

/-- The linked address of a name. -/
def address (name : String) : Word := L.base + BitVec.ofInt 64 ((L.offs.get? name).getD 0)

/-- The calls at a position. -/
def At (i : Nat) (calls : List Call) : Prop := calls <+: L.calls.drop i

def Defines (j : Nat) (name : String) : Prop := L.At j [.label name]

inductive Step : Nat × Cpu → Nat × Cpu → Prop where
  | straight {i : Nat} {c d : Cpu} {call : Call} (here : L.At i [call])
      (ran : call.effect L.env L.address c = some d) : Step (i, c) (i + 1, d)
  | jmp {i j : Nat} {c : Cpu} {target : String} (here : L.At i [.jmp target])
      (defined : L.Defines j target) : Step (i, c) (j, c)
  | taken {i j : Nat} {c : Cpu} {cond target : String} {k : Cond} (here : L.At i [.jcc cond target])
      (named : jumpCondition cond = some k) (holds : k.holds c.flags = true)
      (defined : L.Defines j target) : Step (i, c) (j, c)
  | fall {i : Nat} {c : Cpu} {cond target : String} {k : Cond} (here : L.At i [.jcc cond target])
      (named : jumpCondition cond = some k) (fails : k.holds c.flags = false) : Step (i, c) (i + 1, c)
  | call {i j : Nat} {c : Cpu} {target : String} (here : L.At i [.call target])
      (defined : L.Defines j target) :
      Step (i, c) (j, c.push (L.base + BitVec.ofNat 64 (L.offset (i + 1))))

def Steps : Nat × Cpu → Nat × Cpu → Prop := Relation.ReflTransGen L.Step

/-- Steps from positions inside a range. -/
def Inside (lo hi : Nat) : Nat × Cpu → Nat × Cpu → Prop :=
  Relation.ReflTransGen fun s t => lo ≤ s.1 ∧ s.1 < hi ∧ L.Step s t

/-- The machine has the linked text at its front, and every label is linked to its offset. -/
structure Loaded (M : Machine) : Prop where
  text : assembled L.deterministic (linkFill L.offs) 0 L.calls <+: M.code
  base : M.base = L.base
  env : M.env = L.env
  encoded : ∀ c ∈ L.calls, ∃ bs, c.encode L.deterministic = .ok bs
  linkable : ∀ r ∈ relocsFrom L.deterministic 0 L.calls, Linkable L.offs r
  labels : ∀ j name, L.Defines j name → L.offs.get? name = some (L.offset j : Int)

variable {L}

theorem At.append {i : Nat} (as : List Call) {bs : List Call} (here : L.At i (as ++ bs)) :
    L.At i as ∧ L.At (i + as.length) bs := by
  obtain ⟨rest, shape⟩ := here
  refine ⟨⟨bs ++ rest, by simpa using shape⟩, ⟨rest, ?_⟩⟩
  rw [← List.drop_drop, ← shape]
  simp

theorem At.cons {i : Nat} {call : Call} {calls : List Call} (here : L.At i (call :: calls)) :
    L.At i [call] ∧ L.At (i + 1) calls :=
  At.append [call] here

theorem Steps.refl (s : Nat × Cpu) : L.Steps s s := Relation.ReflTransGen.refl

theorem Steps.trans {s t u : Nat × Cpu} (first : L.Steps s t) (second : L.Steps t u) : L.Steps s u :=
  Relation.ReflTransGen.trans first second

theorem Steps.single {s t : Nat × Cpu} (once : L.Step s t) : L.Steps s t :=
  Relation.ReflTransGen.single once

namespace Inside

variable {lo hi i j : Nat} {c d : Cpu} {s t u : Nat × Cpu}

theorem refl (s : Nat × Cpu) : L.Inside lo hi s s := Relation.ReflTransGen.refl

theorem trans (first : L.Inside lo hi s t) (second : L.Inside lo hi t u) : L.Inside lo hi s u :=
  Relation.ReflTransGen.trans first second

theorem single (lower : lo ≤ s.1) (upper : s.1 < hi) (once : L.Step s t) : L.Inside lo hi s t :=
  Relation.ReflTransGen.single ⟨lower, upper, once⟩

theorem straight {calls : List Call} (here : L.At i calls) (ran : effects L.env L.address calls c = some d)
    (lower : lo ≤ i) (upper : i + calls.length ≤ hi) : L.Inside lo hi (i, c) (i + calls.length, d) := by
  induction calls generalizing i c with
  | nil => cases ran; exact .refl _
  | cons call calls ih =>
    obtain ⟨first, rest⟩ := here.cons
    obtain ⟨m, head, tail⟩ := Option.bind_eq_some_iff.mp ran
    have shift : i + (call :: calls).length = i + 1 + calls.length := by simp; omega
    rw [shift] at upper ⊢
    exact (single lower (show i < hi by omega) (.straight first head)).trans (ih rest tail (by omega) upper)

theorem steps (run : L.Inside lo hi s t) : L.Steps s t :=
  Relation.ReflTransGen.mono (fun _ _ once => once.2.2) _ _ run

theorem jmp {target : String} (here : L.At i [.jmp target]) (defined : L.Defines j target) (lower : lo ≤ i)
    (upper : i < hi) : L.Inside lo hi (i, c) (j, c) :=
  single lower upper (.jmp here defined)

theorem taken {cond target : String} {k : Cond} (here : L.At i [.jcc cond target]) (named : jumpCondition cond = some k)
    (holds : k.holds c.flags = true) (defined : L.Defines j target) (lower : lo ≤ i) (upper : i < hi) :
    L.Inside lo hi (i, c) (j, c) :=
  single lower upper (.taken here named holds defined)

theorem fall {cond target : String} {k : Cond} (here : L.At i [.jcc cond target]) (named : jumpCondition cond = some k)
    (fails : k.holds c.flags = false) (lower : lo ≤ i) (upper : i < hi) : L.Inside lo hi (i, c) (i + 1, c) :=
  single lower upper (.fall here named fails)

end Inside

/-- Straight-line calls run from the first position to the one after the last. -/
theorem steps_of_effects {calls : List Call} {i : Nat} (here : L.At i calls) {c d : Cpu}
    (ran : effects L.env L.address calls c = some d) : L.Steps (i, c) (i + calls.length, d) :=
  (Inside.straight here ran (Nat.le_refl i) (Nat.le_refl _)).steps

/-! ### The machine carries the listing out -/

theorem offset_succ {i : Nat} {call : Call} (here : L.At i [call]) :
    L.offset (i + 1) = L.offset i + call.size L.deterministic := by
  obtain ⟨rest, shape⟩ := here
  have found : L.calls[i]? = some call := by
    have head := congrArg (·[0]?) shape
    simpa using head.symm
  simp [offset, List.take_add_one, found]

/-- The bytes of a call, the linker's number in its field, stand at its offset. -/
theorem Loaded.codeAt {M : Machine} (loaded : L.Loaded M) {i : Nat} {call : Call} (here : L.At i [call]) :
    M.CodeAt (L.offset i) (call.assembled L.deterministic (linkFill L.offs) (L.offset i)) := by
  obtain ⟨tail, text⟩ := loaded.text
  obtain ⟨rest, shape⟩ := here
  have split : L.calls = L.calls.take i ++ (call :: rest) := by
    rw [← List.singleton_append, shape, List.take_append_drop]
  have length := assembled_length L.deterministic (linkFill_four L.offs) 0 (L.calls.take i)
  rw [split, assembled_append, assembled, Nat.zero_add] at text
  change _ = L.offset i at length
  have dropped : M.code.drop (L.offset i) =
      call.assembled L.deterministic (linkFill L.offs) (L.offset i) ++
        (assembled L.deterministic (linkFill L.offs) (L.offset i + call.size L.deterministic) rest ++ tail) := by
    rw [← text, List.append_assoc, List.drop_left' length]
    simp [offset]
  exact ⟨_, dropped.symm⟩

theorem mem_of_at {i : Nat} {call : Call} (here : L.At i [call]) : call ∈ L.calls :=
  List.mem_of_mem_drop (here.subset List.mem_cons_self)

/-- The number the linker puts into the field of a call. -/
def disp (L : Listing) (i : Nat) (call : Call) : Int :=
  (L.offs.get? (call.fixup.getD "")).getD 0 - L.offset (i + 1)

theorem Loaded.spells {M : Machine} (loaded : L.Loaded M) {i : Nat} {call : Call} (here : L.At i [call])
    (modelled : call.Modelled) :
    Spells (call.assembled L.deterministic (linkFill L.offs) (L.offset i)) (call.instrs (L.disp i call)) := by
  obtain ⟨bs, ok⟩ := loaded.encoded call (mem_of_at here)
  have filled := Call.assembled_number ok
    (fun target next => (L.offs.get? target).getD 0 - (next : Int)) (L.offset i)
  rw [← offset_succ here] at filled
  change call.assembled L.deterministic (linkFill L.offs) (L.offset i) = bs ++ call.field (L.disp i call) at filled
  rw [filled]
  cases fixed : call.fixup with
  | none =>
    rw [call.field_const fixed, call.instrs_const fixed]
    exact call.spells ok modelled (by decide) (by decide)
  | some target =>
    obtain ⟨rest, shape⟩ := here
    have split : L.calls = L.calls.take i ++ (call :: rest) := by
      rw [← List.singleton_append, shape, List.take_append_drop]
    have sized : call.size L.deterministic = bs.length + 4 := by
      simp [Call.size, Call.assembled, ok, fixed]
    have field : (⟨L.offset i + call.size L.deterministic - 4, target⟩ : Reloc) ∈
        relocsFrom L.deterministic 0 L.calls := by
      rw [split, relocsFrom_append _]
      simp [relocsFrom, fixed, offset]
    obtain ⟨v, found, lower, upper⟩ := loaded.linkable _ field
    have ending : ((L.offset i + call.size L.deterministic - 4 : Nat) : Int) + 4 = L.offset (i + 1) := by
      rw [offset_succ ⟨rest, shape⟩]
      omega
    simp only [ending] at lower upper found
    have value : L.disp i call = v - L.offset (i + 1) := by simp [disp, fixed, found]
    rw [value]
    exact call.spells ok modelled lower upper

theorem Loaded.length {M : Machine} (_loaded : L.Loaded M) {i : Nat} {call : Call} (here : L.At i [call]) :
    L.offset i + (call.assembled L.deterministic (linkFill L.offs) (L.offset i)).length = L.offset (i + 1) := by
  rw [Call.assembled_length (linkFill_four L.offs), offset_succ here]

/-- A displacement to a label leads to the label's offset. -/
theorem Loaded.target {M : Machine} (loaded : L.Loaded M) {j : Nat} {name : String} (i : Nat) (call : Call)
    (fixed : call.fixup = some name) (defined : L.Defines j name) :
    X64.target (L.offset (i + 1)) (L.disp i call) = some (L.offset j) := by
  have found := loaded.labels j name defined
  have sum : (L.offset (i + 1) : Int) + L.disp i call = L.offset j := by
    simp only [disp, fixed, Option.getD_some, found]
    omega
  rw [X64.target, sum, if_pos (Int.natCast_nonneg _), Int.toNat_natCast]

/-- A call that is one instruction is fetched at its offset. -/
theorem Loaded.fetch {M : Machine} (loaded : L.Loaded M) {i : Nat} {call : Call} {k : Instr} (here : L.At i [call])
    (modelled : call.Modelled) (instrs : call.instrs (L.disp i call) = [k]) :
    M.fetch (L.offset i) = some (k, L.offset (i + 1)) := by
  rw [← loaded.length here]
  exact Machine.fetch_of_spells (instrs ▸ loaded.spells here modelled) (loaded.codeAt here)

/-- A call that is one instruction, transfers included. -/
theorem Loaded.perform {M : Machine} (loaded : L.Loaded M) {i : Nat} {c : Cpu} {call : Call} {k : Instr} {t : X64.State}
    (here : L.At i [call]) (modelled : call.Modelled) (instrs : call.instrs (L.disp i call) = [k])
    (performed : M.perform k (L.offset (i + 1)) c = some t) :
    M.Inside (L.offset i) (L.offset (i + 1)) ⟨L.offset i, c⟩ t := by
  have ending := loaded.length here
  rw [← ending] at performed ⊢
  exact Machine.inside_of_perform (instrs ▸ loaded.spells here modelled) (loaded.codeAt here) performed

/-- What a step of the listing is for the machine: one instruction, transfers included, or the instructions of a call
without a label. -/
theorem Loaded.step_cases {M : Machine} (loaded : L.Loaded M) {i j : Nat} {c d : Cpu} (step : L.Step (i, c) (j, d)) :
    ∃ call, L.At i [call] ∧ call.Modelled ∧
      ((∃ k, call.instrs (L.disp i call) = [k] ∧ M.perform k (L.offset (i + 1)) c = some ⟨L.offset j, d⟩) ∨
        (j = i + 1 ∧ call.fixup = none ∧ execAll M.env (call.instrs 0) c = some d)) := by
  cases step with
  | @straight _ _ _ call here ran =>
    unfold Call.effect at ran
    split at ran
    · next dst target =>
      cases ran
      have address : M.address (L.offset (i + 1)) + BitVec.ofInt 64 (L.disp i (.leaRegLabel dst target)) =
          L.address target := by
        simp only [Machine.address, Listing.address, loaded.base, disp, Call.fixup, Option.getD_some]
        rw [BitVec.add_assoc, ← BitVec.ofInt_natCast, ← BitVec.ofInt_add]
        congr 2
        omega
      exact ⟨_, here, trivial, .inl ⟨_, rfl, by simp only [Machine.perform, address]⟩⟩
    · split at ran
      · next plain => exact ⟨call, here, plain.1, .inr ⟨rfl, plain.2, loaded.env ▸ ran⟩⟩
      · cases ran
  | @jmp _ _ _ target here defined =>
    refine ⟨_, here, trivial, .inl ⟨_, rfl, ?_⟩⟩
    simp only [Machine.perform, loaded.target i (.jmp target) rfl defined, Option.map_some]
  | @taken _ _ _ cond target k here named holds defined =>
    refine ⟨_, here, trivial, .inl ⟨_, by rw [Call.instrs, named], ?_⟩⟩
    simp only [Option.getD_some, Machine.perform, holds, if_true, loaded.target i (.jcc cond target) rfl defined,
      Option.map_some]
  | @fall _ _ cond target k here named fails =>
    refine ⟨_, here, trivial, .inl ⟨_, by rw [Call.instrs, named], ?_⟩⟩
    simp only [Option.getD_some, Machine.perform, fails, Bool.false_eq_true, if_false]
  | @call _ _ _ target here defined =>
    refine ⟨_, here, trivial, .inl ⟨_, rfl, ?_⟩⟩
    simp only [Machine.perform, loaded.target i (.call target) rfl defined, Option.map_some, Machine.address,
      loaded.base]

/-- The instructions of a call without a label. -/
theorem Loaded.spellsAll {M : Machine} (loaded : L.Loaded M) {i : Nat} {call : Call} (here : L.At i [call])
    (modelled : call.Modelled) (noLabel : call.fixup = none) :
    Spells (call.assembled L.deterministic (linkFill L.offs) (L.offset i)) (call.instrs 0) :=
  Call.instrs_const noLabel (L.disp i call) ▸ loaded.spells here modelled

/-- One step of the listing is a run of the machine inside the call. -/
theorem Loaded.step {M : Machine} (loaded : L.Loaded M) {i j : Nat} {c d : Cpu} (step : L.Step (i, c) (j, d)) :
    M.Inside (L.offset i) (L.offset (i + 1)) ⟨L.offset i, c⟩ ⟨L.offset j, d⟩ := by
  obtain ⟨call, here, modelled, ⟨k, instrs, performed⟩ | ⟨rfl, noLabel, ran⟩⟩ := loaded.step_cases step
  · exact loaded.perform here modelled instrs performed
  · have run := Machine.inside_of_spells (loaded.spellsAll here modelled noLabel) (loaded.codeAt here) ran
    rwa [loaded.length here] at run

/-- A run of the listing is a run of the machine. -/
theorem Loaded.steps {M : Machine} (loaded : L.Loaded M) {s t : Nat × Cpu} (run : L.Steps s t) :
    M.Steps ⟨L.offset s.1, s.2⟩ ⟨L.offset t.1, t.2⟩ := by
  induction run with
  | refl => exact .refl _
  | tail _ once ih => exact ih.trans (loaded.step once).steps

theorem offset_le {i j : Nat} (le : i ≤ j) : L.offset i ≤ L.offset j := by
  induction j, le using Nat.le_induction with
  | base => exact Nat.le_refl _
  | succ j _ ih =>
    refine ih.trans ?_
    simp only [offset, List.take_add_one, size_append]
    omega

/-- A run of the listing inside a range is a run of the machine inside the bytes of that range. -/
theorem Loaded.inside {M : Machine} (loaded : L.Loaded M) {lo hi : Nat} {s t : Nat × Cpu} (run : L.Inside lo hi s t) :
    M.Inside (L.offset lo) (L.offset hi) ⟨L.offset s.1, s.2⟩ ⟨L.offset t.1, t.2⟩ := by
  induction run with
  | refl => exact .refl _
  | tail _ once ih =>
    obtain ⟨lower, upper, once⟩ := once
    exact ih.trans ((loaded.step once).mono (offset_le lower) (offset_le (by omega)))

/-- A completed run records every label it defines. -/
theorem run_defines {deterministic : Bool} {calls : List Call} {a : Assembler}
    (ok : (Assembler.empty deterministic).run calls = .ok a) {before after : List Call} {name : String}
    (shape : calls = before ++ .label name :: after) : a.labels.get? name = some (size deterministic before) := by
  subst shape
  obtain ⟨m, first, rest⟩ := Assembler.run_split ok
  obtain ⟨n, defined, rest⟩ := Assembler.run_cons rest
  obtain ⟨fresh, rfl⟩ := Assembler.perform_label defined
  rw [Assembler.run_labels rest]
  simp [Dict.get?_set, Assembler.run_length first]

/-- The listing of a completed and linked run is loaded wherever its text stands. -/
theorem loaded_of_link {a linked : Assembler} (ok : (Assembler.empty L.deterministic).run L.calls = .ok a)
    (link : a.link L.offs = .ok linked)
    (labels : ∀ name o, a.labels.get? name = some o → L.offs.get? name = some (o : Int))
    {M : Machine} (base : M.base = L.base) (env : M.env = L.env) (text : linked.code <+: M.code) :
    L.Loaded M := by
  obtain ⟨code, -, -, linkable⟩ := Assembler.link_code ok link
  obtain ⟨-, relocs, -, encoded⟩ := Assembler.run_code ok
  simp only [Assembler.empty, List.length_nil, List.nil_append] at relocs encoded
  refine ⟨code ▸ text, base, env, encoded, fun r member => linkable r (relocs ▸ member), ?_⟩
  rintro j name ⟨rest, shape⟩
  have split : L.calls = L.calls.take j ++ .label name :: rest := by
    rw [← List.singleton_append, shape, List.take_append_drop]
  exact labels name _ (run_defines ok split)

/-- Calls that are assembled and linked, with data at given offsets, are the listing of some machine. -/
theorem exists_loaded_data (calls : List Call) (data : Dict Int) (env : Env)
    (ok : ((Assembler.empty false).run calls >>= fun a => a.link (a.labelOffsets ++ data)).isOk = true) :
    ∃ (L : Listing) (M : Machine), L.Loaded M ∧ L.calls = calls ∧ L.env = env ∧ L.base = 0 ∧
      ∀ name, name ∉ Assembler.labelNames calls → L.offs.get? name = data.get? name := by
  obtain ⟨linked, assembled⟩ := exists_of_isOk ok
  obtain ⟨a, run, link⟩ := bind_eq_ok.mp assembled
  refine ⟨⟨calls, false, a.labelOffsets ++ data, 0, env⟩, ⟨linked.code, 0, env⟩, ?_, rfl, rfl, rfl, fun name other => ?_⟩
  · refine loaded_of_link run link (fun name o found => ?_) rfl rfl (List.prefix_refl _)
    rw [Dict.get?_append, Assembler.labelOffsets, Dict.get?_map_value, found]
    rfl
  · have none : a.labels.get? name = none := by
      rw [Assembler.run_labels run]
      cases found : (labelsFrom false 0 calls).get? name with
      | none => simpa [Assembler.empty, Dict.get?] using found
      | some o =>
        obtain ⟨before, after, shape, -⟩ := Assembler.labelsFrom_boundary calls 0 found
        exact absurd (by simp [Assembler.labelNames, shape]) other
    rw [Dict.get?_append, Assembler.labelOffsets, Dict.get?_map_value, none]
    rfl

theorem exists_loaded (calls : List Call) (data : Dict Int) (env : Env)
    (ok : ((Assembler.empty false).run calls >>= fun a => a.link (a.labelOffsets ++ data)).isOk = true) :
    ∃ (L : Listing) (M : Machine), L.Loaded M ∧ L.calls = calls ∧ L.env = env ∧ L.base = 0 := by
  obtain ⟨L, M, loaded, same, env, base, -⟩ := exists_loaded_data calls data env ok
  exact ⟨L, M, loaded, same, env, base⟩

end Listing

end Aclm.Encoder
