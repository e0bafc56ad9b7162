import Aclm.Encoder.Call

/-! The assembler's buffer, labels and relocations, and the linker that fills the fields.
The results follow one idea: what a sequence of calls appends is a function of the sequence, of the
offset it starts at and of the four bytes put into each field. -/

set_option autoImplicit false

namespace Aclm.Encoder

open X64 (Byte leBytes ofSigned)

/-- A four-byte field at an offset, and the name it refers to. -/
structure Reloc where
  offset : Nat
  target : String
  deriving DecidableEq, Repr

structure Assembler where
  code : List Byte
  labels : Dict Nat
  relocs : List Reloc
  deterministic : Bool
  deriving DecidableEq, Repr

namespace Assembler

def empty (deterministic : Bool) : Assembler := ⟨[], [], [], deterministic⟩

def label (a : Assembler) (name : String) : Except PyErr Assembler :=
  if a.labels.contains name then .error (.valueError s!"duplicate label: {name}")
  else .ok { a with labels := a.labels.set name a.code.length }

def emit (a : Assembler) (b : List Byte) : Assembler := { a with code := a.code ++ b }

def emitRel32Fixup (a : Assembler) (target : String) : Assembler :=
  let a := a.emit [0, 0, 0, 0]
  { a with relocs := a.relocs ++ [⟨a.code.length - 4, target⟩] }

/-- One method call. -/
def perform (a : Assembler) (c : Call) : Except PyErr Assembler :=
  match c with
  | .label name => a.label name
  | c => do
    let a := a.emit (← c.encode a.deterministic)
    match c.fixup with
    | some target => .ok (a.emitRel32Fixup target)
    | none => .ok a

def run (a : Assembler) : List Call → Except PyErr Assembler
  | [] => .ok a
  | c :: cs => do (← a.perform c).run cs

/-- `code[offset:offset + 4] = field` -/
def patch (code : List Byte) (offset : Nat) (field : List Byte) : List Byte :=
  code.take offset ++ field ++ code.drop (offset + 4)

/-- The field of one relocation. -/
def displacement (offs : Dict Int) (r : Reloc) : Except PyErr (List Byte) :=
  match offs.get? r.target with
  | none => .error (.valueError s!"undefined label referenced: {r.target}")
  | some target => s32 (target - (r.offset + 4))

def patchAll (offs : Dict Int) : List Reloc → List Byte → Except PyErr (List Byte)
  | [], code => .ok code
  | r :: rs, code => do patchAll offs rs (patch code r.offset (← displacement offs r))

/-- `link(base_offset_map)`; without a map the targets are the recorded labels. -/
def link (a : Assembler) (offs : Dict Int) : Except PyErr Assembler := do
  .ok { a with code := ← patchAll offs a.relocs a.code }

def labelOffsets (a : Assembler) : Dict Int := a.labels.map fun l => (l.1, (l.2 : Int))

end Assembler

/-! ### What a sequence of calls appends -/

section Layout

variable (deterministic : Bool)

/-- The bytes of one call from offset `o` on, where `fill` gives each field its four bytes from the
name it refers to and the offset after it. -/
def Call.assembled (fill : String → Nat → List Byte) (o : Nat) (c : Call) : List Byte :=
  match c.encode deterministic with
  | .error _ => []
  | .ok bs => match c.fixup with
    | none => bs
    | some target => bs ++ fill target (o + bs.length + 4)

/-- How far a call moves the end of the buffer. -/
def Call.size (c : Call) : Nat := (c.assembled deterministic (fun _ _ => [0, 0, 0, 0]) 0).length

def assembled (fill : String → Nat → List Byte) : Nat → List Call → List Byte
  | _, [] => []
  | o, c :: cs => c.assembled deterministic fill o ++ assembled fill (o + c.size deterministic) cs

def size (cs : List Call) : Nat := (cs.map (Call.size deterministic)).sum

def relocsFrom : Nat → List Call → List Reloc
  | _, [] => []
  | o, c :: cs =>
    let next := o + c.size deterministic
    match c.fixup with
    | none => relocsFrom next cs
    | some target => ⟨next - 4, target⟩ :: relocsFrom next cs

/-- The names defined by `label` calls, with their offsets. -/
def labelsFrom : Nat → List Call → Dict Nat
  | _, [] => []
  | o, .label name :: cs => (name, o) :: labelsFrom o cs
  | o, c :: cs => labelsFrom (o + c.size deterministic) cs

/-- The zero bytes that stand in a field until it is linked. -/
def zeros (_ : String) (_ : Nat) : List Byte := [0, 0, 0, 0]

variable {deterministic}

/-- Every field has its four bytes. -/
def FourBytes (fill : String → Nat → List Byte) : Prop := ∀ target next, (fill target next).length = 4

theorem zeros_four : FourBytes zeros := fun _ _ => rfl

theorem Call.assembled_length {fill : String → Nat → List Byte} (four : FourBytes fill) (o : Nat)
    (c : Call) : (c.assembled deterministic fill o).length = c.size deterministic := by
  unfold size assembled
  cases c.encode deterministic with
  | error e => rfl
  | ok bs => cases c.fixup with
    | none => rfl
    | some target => simp [four target]

variable (deterministic) in
theorem assembled_length {fill : String → Nat → List Byte} (four : FourBytes fill) (o : Nat)
    (cs : List Call) : (assembled deterministic fill o cs).length = size deterministic cs := by
  induction cs generalizing o with
  | nil => rfl
  | cons c cs ih =>
    simp only [assembled, List.length_append, Call.assembled_length four, ih, size, List.map_cons,
      List.sum_cons]

@[simp] theorem size_nil : size deterministic [] = 0 := rfl

@[simp] theorem size_cons (c : Call) (cs : List Call) :
    size deterministic (c :: cs) = c.size deterministic + size deterministic cs := by
  simp [size]

@[simp] theorem size_append (cs ds : List Call) :
    size deterministic (cs ++ ds) = size deterministic cs + size deterministic ds := by
  simp [size]

theorem assembled_append (fill : String → Nat → List Byte) (o : Nat) (cs ds : List Call) :
    assembled deterministic fill o (cs ++ ds) =
      assembled deterministic fill o cs ++
        assembled deterministic fill (o + size deterministic cs) ds := by
  induction cs generalizing o with
  | nil => simp [assembled]
  | cons c cs ih =>
    simp only [List.cons_append, assembled, ih, size_cons, List.append_assoc]
    rw [Nat.add_assoc]

variable (deterministic) in
theorem relocsFrom_append (o : Nat) (cs ds : List Call) :
    relocsFrom deterministic o (cs ++ ds) =
      relocsFrom deterministic o cs ++ relocsFrom deterministic (o + size deterministic cs) ds := by
  induction cs generalizing o with
  | nil => simp [relocsFrom]
  | cons c cs ih =>
    simp only [List.cons_append, relocsFrom, ih, size_cons, Nat.add_assoc]
    cases c.fixup <;> rfl

end Layout

/-! ### Running calls -/

namespace Assembler

variable {a b : Assembler} {cs : List Call}

theorem perform_eq {c : Call} (notLabel : ∀ name, c ≠ .label name) :
    a.perform c = (do
      let a := a.emit (← c.encode a.deterministic)
      match c.fixup with
      | some target => .ok (a.emitRel32Fixup target)
      | none => .ok a) := by
  cases c <;> first | rfl | exact absurd rfl (notLabel _)

/-- A call that is not a label, seen from its result. -/
theorem perform_code {c : Call} (notLabel : ∀ name, c ≠ .label name) (ok : a.perform c = .ok b) :
    b.code = a.code ++ c.assembled a.deterministic zeros a.code.length ∧ b.labels = a.labels ∧
      b.relocs = a.relocs ++ relocsFrom a.deterministic a.code.length [c] ∧
      b.deterministic = a.deterministic ∧ ∃ bs, c.encode a.deterministic = .ok bs := by
  rw [perform_eq notLabel] at ok
  cases encoded : c.encode a.deterministic with
  | error e => rw [encoded] at ok; cases ok
  | ok bs =>
    rw [encoded] at ok
    cases fixed : c.fixup with
    | none =>
      rw [fixed] at ok
      cases ok
      simp [emit, Call.assembled, encoded, fixed, relocsFrom]
    | some target =>
      rw [fixed] at ok
      cases ok
      have field : c.size a.deterministic = bs.length + 4 := by
        simp [Call.size, Call.assembled, encoded, fixed]
      simp [emit, emitRel32Fixup, Call.assembled, encoded, fixed, relocsFrom, zeros, field,
        ← Nat.add_assoc]

theorem perform_label {name : String} (ok : a.perform (.label name) = .ok b) :
    a.labels.get? name = none ∧ b = { a with labels := a.labels.set name a.code.length } := by
  simp only [perform, label] at ok
  split at ok
  · cases ok
  · next fresh =>
    cases ok
    exact ⟨by simpa [Dict.contains] using fresh, rfl⟩

theorem run_append (a : Assembler) (cs ds : List Call) :
    a.run (cs ++ ds) = (do (← a.run cs).run ds) := by
  induction cs generalizing a with
  | nil => rfl
  | cons c cs ih =>
    simp only [List.cons_append, run]
    cases a.perform c with
    | error e => rfl
    | ok b => exact ih b

theorem run_cons {c : Call} (ok : a.run (c :: cs) = .ok b) :
    ∃ m, a.perform c = .ok m ∧ m.run cs = .ok b := by
  simp only [run] at ok
  cases first : a.perform c with
  | error e => rw [first] at ok; cases ok
  | ok m => rw [first] at ok; exact ⟨m, rfl, ok⟩

theorem run_split {ds : List Call} (ok : a.run (cs ++ ds) = .ok b) :
    ∃ m, a.run cs = .ok m ∧ m.run ds = .ok b := by
  rw [run_append] at ok
  cases first : a.run cs with
  | error e => rw [first] at ok; cases ok
  | ok m => rw [first] at ok; exact ⟨m, rfl, ok⟩

theorem labelsFrom_cons {deterministic : Bool} {c : Call} (notLabel : ∀ name, c ≠ .label name) (o : Nat)
    (cs : List Call) :
    labelsFrom deterministic o (c :: cs) =
      labelsFrom deterministic (o + c.size deterministic) cs := by
  cases c <;> first | rfl | exact absurd rfl (notLabel _)

/-- A run appends what its calls assemble to, with zeros in the fields. -/
theorem run_code (ok : a.run cs = .ok b) :
    b.code = a.code ++ assembled a.deterministic zeros a.code.length cs ∧
      b.relocs = a.relocs ++ relocsFrom a.deterministic a.code.length cs ∧
      b.deterministic = a.deterministic ∧ ∀ c ∈ cs, ∃ bs, c.encode a.deterministic = .ok bs := by
  induction cs generalizing a with
  | nil => cases ok; simp [assembled, relocsFrom]
  | cons c cs ih =>
    obtain ⟨m, first, rest⟩ := run_cons ok
    obtain ⟨code, relocs, det, encoded⟩ := ih rest
    by_cases isLabel : ∃ name, c = .label name
    · obtain ⟨name, rfl⟩ := isLabel
      obtain ⟨-, rfl⟩ := perform_label first
      refine ⟨?_, ?_, det, ?_⟩
      · simpa [assembled, Call.assembled, Call.size, Call.encode, Call.fixup] using code
      · simpa [relocsFrom, Call.assembled, Call.size, Call.encode, Call.fixup] using relocs
      · intro c member
        rcases List.mem_cons.mp member with rfl | member
        · exact ⟨[], rfl⟩
        · exact encoded c member
    · obtain ⟨code', labels', relocs', det', encoded'⟩ :=
        perform_code (fun name same => isLabel ⟨name, same⟩) first
      have position : m.code.length = a.code.length + c.size a.deterministic := by
        rw [code', List.length_append, Call.assembled_length zeros_four]
      rw [det', position] at code relocs
      refine ⟨?_, ?_, det.trans det', ?_⟩
      · rw [code, code', assembled, List.append_assoc]
      · have pieces := relocsFrom_append a.deterministic a.code.length [c] cs
        rw [size_cons, size_nil, Nat.add_zero, List.singleton_append] at pieces
        rw [relocs, relocs', List.append_assoc, pieces]
      · intro d member
        rcases List.mem_cons.mp member with rfl | member
        · exact encoded'
        · rw [← det']; exact encoded d member

/-- The labels of a run are those it started with and, under new and different names, its own. -/
theorem run_labels (ok : a.run cs = .ok b) (name : String) :
    b.labels.get? name =
      (a.labels.get? name).or ((labelsFrom a.deterministic a.code.length cs).get? name) := by
  induction cs generalizing a with
  | nil => cases ok; simp [labelsFrom, Dict.get?]
  | cons c cs ih =>
    obtain ⟨m, first, rest⟩ := run_cons ok
    have found := ih rest
    by_cases isLabel : ∃ name, c = .label name
    · obtain ⟨new, rfl⟩ := isLabel
      obtain ⟨fresh, rfl⟩ := perform_label first
      rw [found]
      simp only [labelsFrom, Dict.get?, Dict.get?_set]
      by_cases same : new = name
      · subst same
        simp [fresh]
      · simp [same]
    · have notLabel : ∀ name, c ≠ .label name := fun name same => isLabel ⟨name, same⟩
      obtain ⟨code, labels, -, det, -⟩ := perform_code notLabel first
      have position : m.code.length = a.code.length + c.size a.deterministic := by
        rw [code, List.length_append, Call.assembled_length zeros_four]
      rw [found, labels, det, position, labelsFrom_cons notLabel]

/-- The names that calls define, in order. -/
def labelNames (cs : List Call) : List String :=
  cs.filterMap fun c => match c with
    | .label name => some name
    | _ => none

theorem perform_ok {c : Call} (notLabel : ∀ name, c ≠ .label name) {bs : List Byte}
    (encoded : c.encode a.deterministic = .ok bs) : ∃ b, a.perform c = .ok b := by
  rw [perform_eq notLabel, encoded]
  cases c.fixup with
  | none => exact ⟨_, rfl⟩
  | some target => exact ⟨_, rfl⟩

/-- Calls that can be encoded, under new and different labels, complete. -/
theorem run_ok (cs : List Call) (encoded : ∀ c ∈ cs, ∃ bs, c.encode a.deterministic = .ok bs)
    (distinct : (labelNames cs).Nodup) (fresh : ∀ name ∈ labelNames cs, a.labels.get? name = none) :
    ∃ b, a.run cs = .ok b := by
  induction cs generalizing a with
  | nil => exact ⟨a, rfl⟩
  | cons c cs ih =>
    have rest := fun c member => encoded c (List.mem_cons_of_mem _ member)
    by_cases isLabel : ∃ name, c = .label name
    · obtain ⟨name, rfl⟩ := isLabel
      have names : labelNames (.label name :: cs) = name :: labelNames cs := rfl
      rw [names] at distinct fresh
      obtain ⟨new, distinct⟩ := List.nodup_cons.mp distinct
      have first : a.perform (.label name) = .ok { a with labels := a.labels.set name a.code.length } := by
        simp [perform, label, Dict.contains, fresh name List.mem_cons_self]
      obtain ⟨b, run⟩ := ih (a := { a with labels := a.labels.set name a.code.length }) rest distinct fun other member => by
        have different : name ≠ other := fun same => new (same ▸ member)
        rw [Dict.get?_set, if_neg different]
        exact fresh other (List.mem_cons_of_mem _ member)
      exact ⟨b, by rw [Assembler.run, first]; exact run⟩
    · have notLabel : ∀ name, c ≠ .label name := fun name same => isLabel ⟨name, same⟩
      have names : labelNames (c :: cs) = labelNames cs := by
        cases c <;> first | rfl | exact absurd rfl (notLabel _)
      rw [names] at distinct fresh
      obtain ⟨bs, ok⟩ := encoded c List.mem_cons_self
      obtain ⟨m, first⟩ := perform_ok notLabel ok
      obtain ⟨-, labels, -, det, -⟩ := perform_code notLabel first
      obtain ⟨b, run⟩ := ih (a := m) (by rwa [det]) distinct (by rwa [labels])
      exact ⟨b, by rw [Assembler.run, first]; exact run⟩

end Assembler

end Aclm.Encoder
