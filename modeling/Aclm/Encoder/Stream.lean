import Aclm.Encoder.Decoding

/-! Every modelled call spells its instructions, and a stream of them decodes to exactly them. -/

set_option autoImplicit false

namespace Aclm.Encoder

open X64 (Byte Instr Spells leBytes ofSigned)

/-- The field after the bytes of a call, when it has one. -/
def Call.field (c : Call) (disp : Int) : List Byte :=
  match c.fixup with
  | some _ => leBytes 4 (ofSigned 32 disp)
  | none => []

/-- Without a field the number does not matter. -/
theorem Call.field_const {c : Call} (fixed : c.fixup = none) (v : Int) : c.field v = c.field 0 := by
  cases c <;> first | rfl | cases fixed

theorem Call.instrs_const {c : Call} (fixed : c.fixup = none) (v : Int) : c.instrs v = c.instrs 0 := by
  cases c <;> first | rfl | cases fixed

/-- A call spells its instructions, whatever fitting number is in its field. -/
theorem Call.spells {deterministic : Bool} {c : Call} {bs : List Byte} (ok : c.encode deterministic = .ok bs)
    (modelled : c.Modelled) {disp : Int} (lower : -2 ^ 31 ≤ disp) (upper : disp < 2 ^ 31) :
    Spells (bs ++ c.field disp) (c.instrs disp) := by
  cases c with
  | label name => cases ok; exact .nil
  | movRegImm64 dst imm =>
    cases ok
    simpa [field, fixup, instrs] using spells_movRegImm64 deterministic dst imm
  | movRegReg dst src =>
    cases ok
    by_cases same : dst = src
    · simpa [same, field, fixup, instrs] using Spells.nil
    · simpa [same, field, fixup, instrs] using spells_movRegReg dst src
  | load size dst src =>
    have spelled : Spells bs [.load size.bytes dst src.ref] := by
      cases size with
      | b8 => exact spells_memOpTwo modelled (.inl ⟨rfl, rfl⟩) ok
      | b16 => exact spells_memOpTwo modelled (.inr ⟨rfl, rfl⟩) ok
      | b32 => exact spells_load32 modelled ok
      | b64 => exact spells_load64 modelled ok
    simpa [field, fixup, instrs] using spelled
  | store size dst src =>
    have spelled : Spells bs [.store size.bytes dst.ref src] := by
      cases size with
      | b8 => exact spells_storeSized modelled (.inl ⟨rfl, rfl, rfl⟩) ok
      | b16 => exact spells_storeSized modelled (.inr (.inl ⟨rfl, rfl, rfl⟩)) ok
      | b32 => exact spells_storeSized modelled (.inr (.inr ⟨rfl, rfl, rfl⟩)) ok
      | b64 => exact spells_store64 modelled ok
    simpa [field, fixup, instrs] using spelled
  | binopRegReg op dst src =>
    cases ok
    simpa [field, fixup, instrs] using spells_binopRegReg op dst src
  | binopRegImm op dst imm =>
    simp only [encode] at ok
    cases range : s32 imm with
    | error e => rw [range] at ok; cases ok
    | ok tail =>
      rw [range] at ok
      cases ok
      obtain ⟨low, high, rfl⟩ := s32_range range
      simpa [field, fixup, instrs] using spells_binopRegImm op dst low high
  | imulRegReg dst src =>
    cases ok
    simpa [field, fixup, instrs] using spells_imulRegReg dst src
  | unaryReg op r =>
    cases ok
    simpa [field, fixup, instrs] using spells_unaryReg op r
  | cqo => cases ok; exact .single (by simp) fun tail => rfl
  | shiftRegImm8 op r imm =>
    cases ok
    simpa [field, fixup, instrs] using spells_shiftRegImm8 op r imm
  | shiftRegCl op r =>
    cases ok
    simpa [field, fixup, instrs] using spells_shiftRegCl op r
  | setccReg cond dst =>
    simp only [encode, setccRegBytes] at ok
    cases found : index SETCC_OPCODE cond with
    | error e => rw [found] at ok; cases ok
    | ok op =>
      rw [found] at ok
      cases ok
      obtain ⟨c, named, rfl⟩ := setcc_opcode (index_ok found)
      simpa [field, fixup, instrs, named, regReg] using
        (spells_setcc c dst).append (spells_movzx8 dst dst)
  | jmp target => cases ok; exact spells_jmp lower upper
  | jcc cond target =>
    simp only [encode] at ok
    cases found : index JCC_OPCODE cond with
    | error e => rw [found] at ok; cases ok
    | ok op =>
      rw [found] at ok
      cases ok
      obtain ⟨c, named, rfl⟩ := jcc_opcode (index_ok found)
      simpa [field, fixup, instrs, named] using spells_jcc lower upper c
  | call target => cases ok; exact spells_call lower upper
  | ret => cases ok; exact .single (by simp) fun tail => rfl
  | pushReg r =>
    cases ok
    simpa [field, fixup, instrs] using spells_pushReg r
  | popReg r =>
    cases ok
    simpa [field, fixup, instrs] using spells_popReg r
  | syscall => cases ok; exact .single (by simp) fun tail => rfl
  | hlt => cases ok; exact .single (by simp) fun tail => rfl
  | leaRegLabel dst target => cases ok; exact spells_leaRegLabel lower upper dst
  | inAlDx => cases ok; exact .single (by simp) fun tail => rfl
  | cmovRegReg cond dst src =>
    simp only [encode] at ok
    cases found : index CMOV_OPCODE cond with
    | error e => rw [found] at ok; cases ok
    | ok op =>
      rw [found] at ok
      cases ok
      obtain ⟨c, named, rfl⟩ := cmov_opcode (index_ok found)
      simpa [field, fixup, instrs, named] using spells_cmovRegReg c dst src
  | xchgRegReg a b =>
    cases ok
    simpa [field, fixup, instrs] using spells_xchgRegReg a b
  | bytes data =>
    cases ok
    obtain ⟨i, found⟩ := Option.isSome_iff_exists.mp modelled
    simpa [field, fixup, instrs, found] using spells_system found

/-- The instructions of a sequence of calls from offset `o` on, `disp` giving each field its number
from the name it refers to and the offset after it. -/
def instrsFrom (deterministic : Bool) (disp : String → Nat → Int) : Nat → List Call → List Instr
  | _, [] => []
  | o, c :: cs =>
    let next := o + c.size deterministic
    c.instrs (disp (c.fixup.getD "") next) ++ instrsFrom deterministic disp next cs

/-- The bytes that hold a number in a field. -/
def numberFill (disp : String → Nat → Int) (target : String) (next : Nat) : List Byte :=
  leBytes 4 (ofSigned 32 (disp target next))

theorem Call.assembled_number {deterministic : Bool} {c : Call} {bs : List Byte}
    (ok : c.encode deterministic = .ok bs) (disp : String → Nat → Int) (o : Nat) :
    c.assembled deterministic (numberFill disp) o =
      bs ++ c.field (disp (c.fixup.getD "") (o + c.size deterministic)) := by
  cases fixed : c.fixup with
  | none => simp [Call.assembled, ok, fixed, field]
  | some target =>
    have sized : c.size deterministic = bs.length + 4 := by
      simp [Call.size, Call.assembled, ok, fixed]
    simp [Call.assembled, ok, fixed, field, numberFill, sized, Nat.add_assoc]

theorem assembled_spells {deterministic : Bool} (cs : List Call) (o : Nat) (disp : String → Nat → Int)
    (encoded : ∀ c ∈ cs, ∃ bs, c.encode deterministic = .ok bs) (modelled : ∀ c ∈ cs, c.Modelled)
    (fits : ∀ r ∈ relocsFrom deterministic o cs,
      -2 ^ 31 ≤ disp r.target (r.offset + 4) ∧ disp r.target (r.offset + 4) < 2 ^ 31) :
    Spells (assembled deterministic (numberFill disp) o cs) (instrsFrom deterministic disp o cs) := by
  induction cs generalizing o with
  | nil => exact .nil
  | cons c cs ih =>
    obtain ⟨bs, ok⟩ := encoded c List.mem_cons_self
    have rest := fun c member => encoded c (List.mem_cons_of_mem _ member)
    have model := modelled c List.mem_cons_self
    have models := fun c member => modelled c (List.mem_cons_of_mem _ member)
    simp only [assembled, instrsFrom, Call.assembled_number ok]
    cases fixed : c.fixup with
    | none =>
      simp only [relocsFrom, fixed] at fits
      rw [c.field_const fixed, c.instrs_const fixed]
      exact (c.spells ok model (by decide) (by decide)).append (ih _ rest models fits)
    | some target =>
      have sized : c.size deterministic = bs.length + 4 := by
        simp [Call.size, Call.assembled, ok, fixed]
      simp only [relocsFrom, fixed] at fits
      obtain ⟨lower, upper⟩ := fits _ List.mem_cons_self
      have ending : o + c.size deterministic - 4 + 4 = o + c.size deterministic := by omega
      simp only [ending] at lower upper
      exact (c.spells ok model lower upper).append
        (ih _ rest models fun r member => fits r (List.mem_cons_of_mem _ member))

theorem Call.Integer.modelled {c : Call} (integer : c.Integer) : c.Modelled := by
  cases c <;> first | exact trivial | exact integer.elim

/-- The buffer of any sequence of integer calls decodes, from its first byte, to exactly their
instructions: with zero displacements before linking, and with the distances to the targets after. -/
theorem decode_stream (deterministic : Bool) (cs : List Call) (a : Assembler)
    (integer : ∀ c ∈ cs, c.Integer) (ok : (Assembler.empty deterministic).run cs = .ok a) :
    X64.decodeAll a.code.length a.code = some (cs.flatMap (Call.instrs 0)) ∧
      ∀ (offs : Dict Int) (linked : Assembler), a.link offs = .ok linked →
        X64.decodeAll linked.code.length linked.code =
          some (instrsFrom deterministic (fun target next => (offs.get? target).getD 0 - next) 0 cs) := by
  obtain ⟨code, relocs, -, encoded⟩ := Assembler.run_code ok
  simp only [Assembler.empty, List.length_nil, List.nil_append] at code relocs encoded
  have modelled := fun c member => (integer c member).modelled
  have flat (o : Nat) (cs : List Call) :
      instrsFrom deterministic (fun _ _ => 0) o cs = cs.flatMap (Call.instrs 0) := by
    induction cs generalizing o with
    | nil => rfl
    | cons c cs ih => simp [instrsFrom, ih]
  refine ⟨?_, fun offs linked link => ?_⟩
  · have unlinked := assembled_spells cs 0 (fun _ _ => 0) encoded modelled (by simp)
    have zero : numberFill (fun _ _ => 0) = zeros := by
      have field : leBytes 4 (ofSigned 32 0) = [0, 0, 0, 0] := by decide
      funext target next
      exact field
    rw [zero, ← code, flat] at unlinked
    exact unlinked.decodeAll (le_refl _)
  · obtain ⟨text, -, -, linkable⟩ := Assembler.link_code ok link
    have spelled := assembled_spells cs 0 (fun target next => (offs.get? target).getD 0 - next) encoded
      modelled fun r member => by
        obtain ⟨target, found, lower, upper⟩ := linkable r (by rw [relocs]; exact member)
        simpa [found] using And.intro lower upper
    rw [text]
    exact spelled.decodeAll (le_refl _)

/-- A comparison, an alias of a condition, and the exchange with RAX in its short form. -/
theorem decode_stream_mixed :
    X64.decodeAll 12 [0x49, 0x39, 0xC4, 0x48, 0x91, 0x0F, 0x83, 0xF5, 0xFF, 0xFF, 0xFF] =
      some [.alu .cmp .r12 .rax, .xchg .rax .rcx, .jcc .ae (-11)] :=
  (decode_stream false [.label "top", .binopRegReg .cmp .r12 .rax, .xchgRegReg .rcx .rax, .jcc "abe" "top"]
    ⟨[0x49, 0x39, 0xC4, 0x48, 0x91, 0x0F, 0x83, 0, 0, 0, 0], [("top", 0)], [⟨7, "top"⟩], false⟩
    (by decide) rfl).2 [("top", 0)]
    ⟨[0x49, 0x39, 0xC4, 0x48, 0x91, 0x0F, 0x83, 0xF5, 0xFF, 0xFF, 0xFF], [("top", 0)], [⟨7, "top"⟩], false⟩ rfl

end Aclm.Encoder
