import Aclm.Encoder.Stream
import Aclm.Encoder.Instructions
import Aclm.X64.Immediate
import Aclm.X64.Access
import Aclm.X64.Machine

/-! Memory operands: the emitters with 32-bit displacements read back as what they were given; those
with a one-byte displacement only as far as the byte and their prefix go. -/

set_option autoImplicit false

namespace Aclm.Encoder

open X64 (Byte Reg Rex MemRef Spells Access Narrow narrowed takeRm modrmByte)

/-! ### Operands with a 32-bit displacement -/

/-- A displacement fits in 32 bits, or the operand is not encoded. -/
theorem memOperand_iff (field : Nat) {m : Mem} (scale : m.scale ∈ [1, 2, 4, 8]) :
    (∃ v, memOperand field m = .ok v) ↔ -2 ^ 31 ≤ m.disp ∧ m.disp < 2 ^ 31 := by
  have sib : ∃ x bs, memSib m = .ok (x, bs) := by
    unfold memSib
    cases m.index with
    | none => exact ⟨_, _, rfl⟩
    | some i =>
      simp only [List.mem_cons, List.not_mem_nil, or_false] at scale
      rcases scale with known | known | known | known <;> rw [known] <;> exact ⟨_, _, rfl⟩
  obtain ⟨x, bs, sib⟩ := sib
  simp only [memOperand, sib, bind, Except.bind]
  by_cases needed : m.disp ≠ 0 ∨ m.base.num &&& 7 = 5
  · simp only [if_pos needed, memDisp, if_true, s32]
    by_cases outside : m.disp < -2 ^ 31 ∨ m.disp > 2 ^ 31 - 1
    · simp only [if_pos outside, reduceCtorEq, exists_false, false_iff, not_and]
      exact fun lower => by omega
    · rw [if_neg outside]
      exact ⟨fun _ => by omega, fun _ => ⟨_, rfl⟩⟩
  · have zero : m.disp = 0 := by simpa using (not_or.mp needed).1
    simp only [if_neg needed, memDisp]
    exact ⟨fun _ => by rw [zero]; decide, fun _ => ⟨_, rfl⟩⟩

theorem encode_load_iff (size : Size) (dst : Reg) {m : Mem} (scale : m.scale ∈ [1, 2, 4, 8]) :
    (∃ bs, (Call.load size dst m).encode false = .ok bs) ↔ -2 ^ 31 ≤ m.disp ∧ m.disp < 2 ^ 31 := by
  rw [← memOperand_iff (dst.num &&& 7) scale]
  cases size <;> simp only [Call.encode, memOp, mov32RegMemBytes, bind, Except.bind] <;>
    cases memOperand (dst.num &&& 7) m <;> simp

theorem encode_store_iff (size : Size) (src : Reg) {m : Mem} (scale : m.scale ∈ [1, 2, 4, 8]) :
    (∃ bs, (Call.store size m src).encode false = .ok bs) ↔ -2 ^ 31 ≤ m.disp ∧ m.disp < 2 ^ 31 := by
  rw [← memOperand_iff (src.num &&& 7) scale]
  cases size <;> simp only [Call.encode, memOp, memOpSized, bind, Except.bind] <;>
    cases memOperand (src.num &&& 7) m <;> simp

/-! ### Operands with a one-byte displacement -/

theorem ofFields_fields (b : Bool) {l : Nat} (lt : l < 8) : (Reg.ofFields b l).low = l ∧ (Reg.ofFields b l).high = b := by
  have all : ∀ b : Bool, ∀ l : Fin 8, (Reg.ofFields b l).low = l ∧ (Reg.ofFields b l).high = b := by decide
  exact all b ⟨l, lt⟩

theorem takeDisp_zero {disp : Int} (zero : disp = 0) (rest : List Byte) :
    X64.takeDisp 0 rest = some (narrowed 8 disp, rest) := by
  rw [zero]
  rfl

theorem takeDisp_byte (disp : Int) (rest : List Byte) : X64.takeDisp 1 (u8 disp ++ rest) = some (narrowed 8 disp, rest) :=
  X64.takeS8_narrowed disp rest

section Short

variable {field : Nat} (small : field < 8) (p : Rex) (base : Reg) (disp : Int)
include small

/-- Away from RSP and R12 the base is the register with the prefix's bit. -/
theorem takeRm_memDisp8 (noSib : base.low ≠ 4) (rest : List Byte) :
    takeRm p (memDisp8 field base disp ++ rest) =
      some (field, .mem ⟨some (Reg.ofFields p.b base.low), none, BitVec.ofInt 64 (narrowed 8 disp)⟩, rest) := by
  obtain ⟨low, high⟩ := ofFields_fields p.b base.low_lt
  unfold memDisp8
  simp only [and_seven]
  generalize Reg.ofFields p.b base.low = s at low high ⊢
  rw [← low] at noSib ⊢
  split
  · next plain =>
    rw [modrm_eq (by decide) small s.low_lt]
    simp only [List.cons_append, List.nil_append]
    rw [X64.takeRm_base small (by decide) (takeDisp_zero plain.1 rest) high.symm noSib (by simp [plain.2])]
  · rw [modrm_eq (by decide) small s.low_lt]
    simp only [List.cons_append, List.nil_append]
    rw [X64.takeRm_base small (by decide) (takeDisp_byte disp rest) high.symm noSib (by simp)]

/-- For RSP and R12 the SIB byte is missing. -/
theorem takeRm_memDisp8_short (sib : base.low = 4) : takeRm p (memDisp8 field base disp) = none := by
  unfold memDisp8
  simp only [and_seven, sib]
  split
  · rw [modrm_eq (by decide) small (by decide)]
    obtain ⟨top, mid, low⟩ := X64.modrmByte_fields (by decide : 0 < 4) small (by decide : 4 < 8)
    simp [takeRm, top, mid, low, X64.takeSib]
  · rw [modrm_eq (by decide) small (by decide)]
    obtain ⟨top, mid, low⟩ := X64.modrmByte_fields (by decide : 1 < 4) small (by decide : 4 < 8)
    simp [takeRm, top, mid, low, X64.takeSib, u8, X64.leBytes, X64.takeDisp, X64.takeS8, X64.take8]

theorem takeRm_memSib8 (hb : p.b = base.high) (hx : p.x = false) (rest : List Byte) :
    takeRm p (memSib8 field base disp ++ rest) =
      some (field, .mem ⟨some base, none, BitVec.ofInt 64 (narrowed 8 disp)⟩, rest) := by
  unfold memSib8
  simp only [and_seven]
  by_cases four : base.low = 4
  · have index : Reg.ofFields p.x 4 = .rsp := by rw [hx]; rfl
    have sib : (BitVec.ofNat 8 (4 <<< 3 ||| 4) : Byte) = modrmByte 0 4 base.low := by rw [four]; rfl
    by_cases zero : disp = 0
    · rw [if_pos four, if_neg (not_not.mpr zero), modrm_eq (by decide) small (by decide), sib]
      simp only [List.cons_append, List.nil_append]
      rw [X64.takeRm_sib small (by decide) (takeDisp_zero zero rest) (by decide) (by decide) hb (by simp [four]), index]
      rfl
    · rw [if_pos four, if_pos zero, modrm_eq (by decide) small (by decide), sib]
      simp only [List.cons_append, List.nil_append]
      rw [X64.takeRm_sib small (by decide) (takeDisp_byte disp rest) (by decide) (by decide) hb (by simp), index]
      rfl
  · rw [if_neg four, takeRm_memDisp8 small p base disp four rest, hb, Reg.ofFields_high_low]

end Short

/-- The emitters that take a base and a displacement, with their other operand. -/
inductive DispForm where
  | cmov (cond : String) (dst : Reg)
  | cmpxchg16b
  | lockCmpxchg (src : Reg)
  | vmovupsLoad (ymm : String)
  | vmovupsStore (ymm : String)
  deriving DecidableEq, Repr

namespace DispForm

variable (base : Reg) (disp : Int)

def emitted : DispForm → Except PyErr Call
  | cmov cond dst => cmovRegMem cond dst base disp
  | cmpxchg16b => .ok (cmpxchg16bMem base disp)
  | lockCmpxchg src => .ok (lockCmpxchgMem base disp src)
  | vmovupsLoad ymm => Encoder.vmovupsLoad ymm base disp
  | vmovupsStore ymm => Encoder.vmovupsStore base ymm disp

/-- The operands are rejected, or the bytes are one instruction that accesses the base plus the
displacement. -/
def Exact (form : DispForm) : Prop :=
  ∀ call, form.emitted base disp = .ok call → ∃ bs op, call = .bytes bs ∧
    ∀ rest, Access.decode (bs ++ rest) = some (op, ⟨some base, none, BitVec.ofInt 64 disp⟩, rest)

/-- The byte has room for the displacement, the SIB byte that the base needs is there, and the prefix
has a bit for the base. -/
def Fits : DispForm → Prop
  | cmov .. | cmpxchg16b => base.low ≠ 4 ∧ Narrow 8 disp
  | lockCmpxchg _ => Narrow 8 disp
  | vmovupsLoad _ | vmovupsStore _ => base.num < 8 ∧ (base.low = 4 → disp = 0) ∧ Narrow 8 disp

variable {base disp}

/-- What is read is exact where base and byte are. -/
theorem exact_iff_read {form : DispForm} {bs : List Byte} {op : Access} {b : Reg} (emits : form.emitted base disp = .ok (.bytes bs))
    (read : ∀ rest, Access.decode (bs ++ rest) = some (op, ⟨some b, none, BitVec.ofInt 64 (narrowed 8 disp)⟩, rest)) :
    form.Exact base disp ↔ b = base ∧ Narrow 8 disp := by
  rw [← X64.narrowed_iff (by decide) disp]
  constructor
  · intro exact
    obtain ⟨bs', op', same, decoded⟩ := exact _ emits
    cases same
    have agree := (read []).symm.trans (decoded [])
    simp only [Option.some.injEq, Prod.mk.injEq, MemRef.mk.injEq, true_and, and_true] at agree
    exact agree.2
  · rintro ⟨rfl, narrow⟩ call emits'
    rw [emits] at emits'
    cases emits'
    exact ⟨bs, op, rfl, fun rest => narrow ▸ read rest⟩

theorem not_exact {form : DispForm} {bs : List Byte} (emits : form.emitted base disp = .ok (.bytes bs))
    (missing : Access.decode bs = none) : ¬form.Exact base disp := by
  intro exact
  obtain ⟨bs', op, same, decoded⟩ := exact _ emits
  cases same
  have whole := decoded []
  rw [List.append_nil, missing] at whole
  cases whole

/-- With the base's bit in a REX prefix and no SIB byte. -/
theorem exact_iff_rex {form : DispForm} (p : Rex) (pre : List Byte) (op : Access) {field : Nat} (small : field < 8)
    (emits : form.emitted base disp = .ok (.bytes (pre ++ memDisp8 field base disp))) (hb : p.b = base.high)
    (read : ∀ {tail rest m}, takeRm p tail = some (field, .mem m, rest) → Access.decode (pre ++ tail) = some (op, m, rest))
    (missing : ∀ {tail}, takeRm p tail = none → Access.decode (pre ++ tail) = none) :
    form.Exact base disp ↔ base.low ≠ 4 ∧ Narrow 8 disp := by
  by_cases sib : base.low = 4
  · simp only [sib, ne_eq, not_true_eq_false, false_and, iff_false]
    exact not_exact emits (missing (takeRm_memDisp8_short small p base disp sib))
  · rw [@exact_iff_read base disp form _ op base emits fun rest => ?_]
    · simp [sib]
    · have operand := takeRm_memDisp8 small p base disp sib rest
      rw [hb, Reg.ofFields_high_low] at operand
      rw [List.append_assoc]
      exact read operand

theorem exact_cmov {cond : String} {dst : Reg} {op : Byte} (found : CMOV_OPCODE.get? cond = some op) :
    (cmov cond dst).Exact base disp ↔ base.low ≠ 4 ∧ Narrow 8 disp := by
  obtain ⟨c, -, rfl⟩ := cmov_opcode found
  obtain ⟨row, code⟩ := cond_opcode c (by decide : 4 < 16)
  have pfx := rex_eq true dst.high false base.high
  simp only [Bool.toNat_true, Bool.toNat_false] at pfx
  refine exact_iff_rex ⟨true, dst.high, false, base.high⟩
    [Rex.byte ⟨true, dst.high, false, base.high⟩, 0x0F, BitVec.ofNat 8 (0x40 + c.code)] (.cmov c dst) dst.low_lt ?_ rfl
    (fun read => ?_) (fun missing => ?_)
  · simp [emitted, cmovRegMem, found, shift_three, and_seven, pfx]
  · simp only [Nat.reduceMul] at row code
    have decoded := Access.decode_two _ (BitVec.ofNat 8 (0x40 + c.code)) read
    rw [if_pos ⟨row, rfl⟩, code] at decoded
    simpa using decoded
  · exact Access.decode_two_none _ _ missing

theorem exact_cmpxchg16b : cmpxchg16b.Exact base disp ↔ base.low ≠ 4 ∧ Narrow 8 disp := by
  have pfx := rex_eq true false false base.high
  simp only [Bool.toNat_true, Bool.toNat_false] at pfx
  have bit : (base.num >>> 3) &&& 1 = base.high.toNat := by cases base <;> rfl
  refine exact_iff_rex ⟨true, false, false, base.high⟩ [0xF0, Rex.byte ⟨true, false, false, base.high⟩, 0x0F, 0xC7]
    .lockCmpxchg16b (by decide : 1 < 8) ?_ rfl (fun read => ?_) (fun missing => ?_)
  · simp [emitted, cmpxchg16bMem, bit, pfx]
  · simpa using Access.decode_lock _ 0xC7 read rfl
  · exact Access.decode_lock_none _ _ missing

theorem exact_lockCmpxchg {src : Reg} : (lockCmpxchg src).Exact base disp ↔ Narrow 8 disp := by
  have pfx := rex_eq true src.high false base.high
  simp only [Bool.toNat_true, Bool.toNat_false] at pfx
  rw [@exact_iff_read base disp (lockCmpxchg src) _ (.lockCmpxchg src) base rfl fun rest => ?_]
  · simp
  · have operand := takeRm_memSib8 src.low_lt ⟨true, src.high, false, base.high⟩ base disp rfl rfl rest
    have decoded := Access.decode_lock _ 0xB1 operand rfl
    simpa [shift_three, and_seven, pfx] using decoded

/-- The operand behind a VEX prefix: RSP gets its SIB byte where there is no displacement. -/
theorem takeRm_vmovups {field : Nat} (small : field < 8) (sib : base.low = 4 → disp = 0) (rest : List Byte) :
    takeRm .absent ((if base.low = 5 ∨ disp ≠ 0 then [modrm 1 field base.low] ++ u8 disp
      else if base.low = 4 then [modrm 0 field 4, BitVec.ofNat 8 (4 <<< 3 ||| base.low)] else [modrm 0 field base.low]) ++ rest) =
      some (field, .mem ⟨some (Reg.ofFields false base.low), none, BitVec.ofInt 64 (narrowed 8 disp)⟩, rest) := by
  by_cases four : base.low = 4
  · have zero := sib four
    have operand := takeRm_memSib8 small .absent .rsp 0 rfl rfl rest
    rw [zero, if_neg (by simp [four]), if_pos four, four]
    exact operand
  · have operand := takeRm_memDisp8 small .absent base disp four rest
    unfold memDisp8 at operand
    rw [and_seven] at operand
    by_cases plain : disp = 0 ∧ base.low ≠ 5
    · rw [if_neg (by simp [plain]), if_neg four]
      rwa [if_pos plain] at operand
    · rw [if_pos (by tauto)]
      rwa [if_neg plain] at operand

theorem exact_vmovups {form : DispForm} {opcode : Byte} {store : Bool} {ymm : String} {d : Nat}
    (emits : form.emitted base disp = Encoder.vmovups opcode ymm base disp) (kind : Access.isStore opcode.toNat = some store)
    (named : ymmNum ymm = .ok d) :
    form.Exact base disp ↔ base.num < 8 ∧ (base.low = 4 → disp = 0) ∧ Narrow 8 disp := by
  have small : d &&& 7 < 8 := Nat.lt_of_le_of_lt Nat.and_le_right (by decide)
  obtain ⟨v, prefixed, plain⟩ : ∃ v : Byte, BitVec.ofNat 8 ((if d < 8 then 1 else 0) <<< 7 ||| 0xF <<< 3 ||| 1 <<< 2) = v ∧
      v.toNat % 128 = 0x7C := by
    refine ⟨_, rfl, ?_⟩
    split <;> decide
  simp only [Encoder.vmovups, named, bind, Except.bind, and_seven, prefixed] at emits
  by_cases sib : base.low = 4 → disp = 0
  · have low : Reg.ofFields false base.low = base ↔ base.num < 8 := by cases base <;> decide
    rw [@exact_iff_read base disp form _ (.vmovups store (Access.vector (v.toNat < 128) (d &&& 7)))
      (Reg.ofFields false base.low) emits fun rest => ?_]
    · rw [low]
      exact ⟨fun both => ⟨both.1, sib, both.2⟩, fun all => ⟨all.1, all.2.2⟩⟩
    · have decoded := Access.decode_vex opcode plain (takeRm_vmovups small sib rest)
      simpa [kind] using decoded
  · obtain ⟨four, moved⟩ := Classical.not_imp.mp sib
    simp only [sib, false_and, and_false, iff_false]
    refine not_exact emits ?_
    have missing := takeRm_memDisp8_short small .absent base disp four
    unfold memDisp8 at missing
    rw [and_seven, if_neg (by simp [moved])] at missing
    simpa [moved] using Access.decode_vex_none opcode missing

end DispForm

/-- The operand is exact just where the byte has room, the SIB byte is there and the prefix reaches
the base. -/
theorem displacement_exact_iff (form : DispForm) (base : Reg) (disp : Int) :
    form.Exact base disp ↔ (∃ e, form.emitted base disp = .error e) ∨ form.Fits base disp := by
  cases emits : form.emitted base disp with
  | error e =>
    refine iff_of_true (fun call ok => ?_) (.inl ⟨e, rfl⟩)
    rw [emits] at ok
    cases ok
  | ok call =>
    simp only [reduceCtorEq, exists_false, false_or]
    cases form with
    | cmov cond dst =>
      cases found : CMOV_OPCODE.get? cond with
      | none => simp [DispForm.emitted, cmovRegMem, found] at emits
      | some op => exact DispForm.exact_cmov found
    | cmpxchg16b => exact DispForm.exact_cmpxchg16b
    | lockCmpxchg src => exact DispForm.exact_lockCmpxchg
    | vmovupsLoad ymm =>
      obtain ⟨d, named, -⟩ := bind_eq_ok.mp emits
      exact @DispForm.exact_vmovups base disp _ 0x10 false ymm d rfl rfl named
    | vmovupsStore ymm =>
      obtain ⟨d, named, -⟩ := bind_eq_ok.mp emits
      exact @DispForm.exact_vmovups base disp _ 0x11 true ymm d rfl rfl named

/-- A vector load from `[r8]` reads `[rax]`. -/
theorem displacement_wrong : ¬(DispForm.vmovupsLoad "ymm0").Exact .r8 0 := by
  intro exact
  obtain ⟨bs, op, same, decoded⟩ := exact _ rfl
  cases same
  have whole := decoded []
  have read : Access.decode [0xC5, 0xFC, 0x10, 0x00] = some (.vmovups false 0, ⟨some .rax, none, 0⟩, []) := by decide
  exact absurd (read.symm.trans whole) (by simp)

/-! ### The emitters with 32-bit displacements -/

/-- The operand of the unaligned SSE moves, one byte or four for the displacement. -/
theorem takeRm_based {field mod : Nat} (small : field < 8) (hm : mod < 3) {p : Rex} {base : Reg} {disp : Int}
    {bs rest : List Byte} (hb : p.b = base.high) (hx : p.x = false) (hdisp : X64.takeDisp mod bs = some (disp, rest))
    (noRip : ¬(mod = 0 ∧ base.low = 5)) :
    takeRm p (modrm mod field base.low :: ((if base.low = 4 then [0x24#8] else []) ++ bs)) =
      some (field, .mem ⟨some base, none, BitVec.ofInt 64 disp⟩, rest) := by
  by_cases four : base.low = 4
  · have index : Reg.ofFields p.x 4 = .rsp := by rw [hx]; rfl
    have sib : (0x24#8 : Byte) = modrmByte 0 4 base.low := by rw [four]; rfl
    have escape : modrm mod field base.low = modrmByte mod field 4 := by rw [four, modrm_eq (by omega) small (by decide)]
    rw [if_pos four, sib, escape]
    simp only [List.cons_append, List.nil_append]
    rw [X64.takeRm_sib small hm hdisp (by decide) (by decide) hb (by omega), index]
    rfl
  · rw [if_neg four, List.nil_append, modrm_eq (by omega) small base.low_lt, X64.takeRm_base small hm hdisp hb four noRip]

theorem movupsOperand_ok {x : Nat} (small : x < 8) {base : Reg} {disp : Int} (lower : -2 ^ 31 ≤ disp) (upper : disp < 2 ^ 31) :
    ∃ bs, movupsOperand x base disp = .ok bs ∧ ∀ (p : Rex) rest, p.b = base.high → p.x = false →
      takeRm p (bs ++ rest) = some (x, .mem ⟨some base, none, BitVec.ofInt 64 disp⟩, rest) := by
  have low : x &&& 7 = x := by
    have all : ∀ x : Fin 8, x.val &&& 7 = x := by decide
    exact all ⟨x, small⟩
  simp only [movupsOperand, and_seven, low]
  by_cases none : disp = 0 ∧ base.low ≠ 5
  · refine ⟨_, if_pos none, fun p rest hb hx => ?_⟩
    rw [List.append_assoc, List.singleton_append]
    exact takeRm_based small (by decide) hb hx (by rw [none.1]; rfl) (by simp [none.2])
  rw [if_neg none]
  by_cases short : -128 ≤ disp ∧ disp ≤ 127
  · refine ⟨[modrm 1 x base.low] ++ (if base.low = 4 then [0x24#8] else []) ++ X64.leBytes 1 (X64.ofSigned 8 disp), ?_,
      fun p rest hb hx => ?_⟩
    · simp [if_pos short, s8, bind, Except.bind, show ¬(disp < -128 ∨ 127 < disp) by omega]
    · rw [List.append_assoc, List.append_assoc, List.singleton_append]
      exact takeRm_based small (by decide) hb hx (X64.takeS8_ofSigned rest (by omega) (by omega)) (by simp)
  · refine ⟨[modrm 2 x base.low] ++ (if base.low = 4 then [0x24#8] else []) ++ X64.leBytes 4 (X64.ofSigned 32 disp), ?_,
      fun p rest hb hx => ?_⟩
    · simp [if_neg short, s32_ok lower upper, bind, Except.bind]
    · rw [List.append_assoc, List.append_assoc, List.singleton_append]
      exact takeRm_based small (by decide) hb hx (X64.takeS32_ofSigned rest lower upper) (by simp)

theorem xmmNum_lt {xmm : String} {x : Nat} (named : xmmNum xmm = .ok x) : x < 8 := by
  have all : ∀ entry ∈ XMM, entry.2 < 8 := by decide
  unfold xmmNum at named
  split at named
  · next found =>
    cases named
    exact all _ (Dict.entry_of_get? found)
  · cases named

theorem movups_round_trip {xmm : String} {x : Nat} (named : xmmNum xmm = .ok x) {opcode : Byte} {store : Bool}
    (kind : opcode.toNat / 16 = 1 ∧ Access.isStore opcode.toNat = some store) {base : Reg} {disp : Int}
    (lower : -2 ^ 31 ≤ disp) (upper : disp < 2 ^ 31) : ∃ bs, movups opcode xmm base disp = .ok (.bytes bs) ∧
      ∀ rest, Access.decode (bs ++ rest) = some (.movups store x, ⟨some base, none, BitVec.ofInt 64 disp⟩, rest) := by
  have small := xmmNum_lt named
  obtain ⟨operand, ok, read⟩ := @movupsOperand_ok x small base disp lower upper
  have pfx : rex 0 (x >>> 3) 0 1 = Rex.byte ⟨false, false, false, true⟩ := by
    have all : ∀ x : Fin 8, rex 0 (x.val >>> 3) 0 1 = Rex.byte ⟨false, false, false, true⟩ := by decide
    exact all ⟨x, small⟩
  refine ⟨(if base.num ≥ 8 then [rex 0 (x >>> 3) 0 1] else []) ++ [0x0F, opcode] ++ operand, ?_, fun rest => ?_⟩
  · simp [movups, named, ok, bind, Except.bind]
  by_cases high : base.num ≥ 8
  · have decoded := Access.decode_two _ opcode (read ⟨false, false, false, true⟩ rest (by simp [Reg.high, high]) rfl)
    simpa [high, pfx, kind.1, kind.2, Access.vector] using decoded
  · have decoded := Access.decode_bare opcode (read .absent rest (by simp [Rex.absent, Reg.high, high]) rfl)
    simpa [high, kind.2, Access.vector] using decoded

/-- A memory operand of any of the emitters reads back as it was given: the register that is moved at
its size, the base, the index, the scale and the displacement. -/
theorem memory_round_trip {m : Mem} (notRsp : m.index ≠ some .rsp) (scale : m.scale ∈ [1, 2, 4, 8])
    (lower : -2 ^ 31 ≤ m.disp) (upper : m.disp < 2 ^ 31) :
    (∀ deterministic size r, ∃ bs, (Call.load size r m).encode deterministic = .ok bs ∧
      ∀ rest, X64.decode (bs ++ rest) = some (.load size.bytes r m.ref, rest)) ∧
    (∀ deterministic size r, ∃ bs, (Call.store size m r).encode deterministic = .ok bs ∧
      ∀ rest, X64.decode (bs ++ rest) = some (.store size.bytes m.ref r, rest)) ∧
    ∀ xmm x, xmmNum xmm = .ok x →
      (∃ bs, movupsXmmMem xmm m.base m.disp = .ok (.bytes bs) ∧ ∀ rest, Access.decode (bs ++ rest) =
        some (.movups false x, ⟨some m.base, none, BitVec.ofInt 64 m.disp⟩, rest)) ∧
      ∃ bs, movupsMemXmm m.base xmm m.disp = .ok (.bytes bs) ∧ ∀ rest, Access.decode (bs ++ rest) =
        some (.movups true x, ⟨some m.base, none, BitVec.ofInt 64 m.disp⟩, rest) := by
  refine ⟨fun deterministic size r => ?_, fun deterministic size r => ?_, fun xmm x named => ?_⟩
  · obtain ⟨bs, ok⟩ := (encode_load_iff size r scale).mpr ⟨lower, upper⟩
    have spelled := Call.spells ok (show (Call.load size r m).Modelled from notRsp) (by decide : (-2 ^ 31 : Int) ≤ 0) (by decide)
    simp only [Call.field, Call.fixup, Call.instrs, List.append_nil] at spelled
    exact ⟨bs, by cases size <;> exact ok, spelled.single_inv.2⟩
  · obtain ⟨bs, ok⟩ := (encode_store_iff size r scale).mpr ⟨lower, upper⟩
    have spelled := Call.spells ok (show (Call.store size m r).Modelled from notRsp) (by decide : (-2 ^ 31 : Int) ≤ 0) (by decide)
    simp only [Call.field, Call.fixup, Call.instrs, List.append_nil] at spelled
    exact ⟨bs, by cases size <;> exact ok, spelled.single_inv.2⟩
  · exact ⟨movups_round_trip named ⟨rfl, rfl⟩ lower upper, movups_round_trip named ⟨rfl, rfl⟩ lower upper⟩

/-- `[r13 + r12 * 8 - 129]` -/
theorem memory_round_trip_indexed : ∃ bs, (Call.store .b8 ⟨.r13, -129, some .r12, 8⟩ .rsi).encode false = .ok bs ∧
    X64.decode bs = some (.store 1 ⟨some .r13, some (.r12, 3), BitVec.ofInt 64 (-129)⟩ .rsi, []) := by
  obtain ⟨-, stores, -⟩ := @memory_round_trip ⟨.r13, -129, some .r12, 8⟩ (by decide) (by decide) (by decide) (by decide)
  obtain ⟨bs, ok, read⟩ := stores false .b8 .rsi
  have whole := read []
  rw [List.append_nil] at whole
  exact ⟨bs, ok, whole⟩

end Aclm.Encoder
