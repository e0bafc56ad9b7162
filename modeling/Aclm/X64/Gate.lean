import Aclm.X64.Elf
import Aclm.X64.Region

/-! The descriptors of an interrupt table, and memory that is written piece by piece. -/

set_option autoImplicit false

namespace Aclm.X64

/-- What the sixteen bytes of a descriptor say. -/
structure Gate where
  offset : Word
  selector : Nat
  ist : Nat
  type : Nat
  dpl : Nat
  present : Bool
  deriving DecidableEq, Repr

def Gate.ofBytes (bs : List Byte) : Gate :=
  let field := Elf.field bs
  { offset := BitVec.ofNat 64 (field 0 2 + field 6 2 * 2 ^ 16 + field 8 4 * 2 ^ 32), selector := field 2 2,
    ist := field 4 1 % 8, type := field 5 1 % 32, dpl := field 5 1 / 32 % 4, present := 128 ≤ field 5 1 }

/-- A present interrupt gate of ring 0 in the code segment 8. -/
def interruptGate (handler : Word) : Gate := ⟨handler, 8, 0, 0x0E, 0, true⟩

/-- The gate of vector `v` in the table at an address. -/
def gateAt (m : Memory) (table : Word) (v : Nat) : Gate := .ofBytes (m.bytes (table + BitVec.ofNat 64 (16 * v)) 16)

/-- The bytes of such a gate. -/
def gateBytes (handler : Word) : List Byte :=
  leBytes 2 handler.toNat ++ (leBytes 2 8 ++ (leBytes 2 0x8E00 ++ (leBytes 2 (handler >>> 16).toNat ++
    (leBytes 4 (handler >>> 32).toNat ++ leBytes 4 0))))

theorem gateBytes_length (handler : Word) : (gateBytes handler).length = 16 := by simp [gateBytes]

/-- The three parts of the address are put together again. -/
theorem ofBytes_gateBytes (handler : Word) : Gate.ofBytes (gateBytes handler) = interruptGate handler := by
  have first : Elf.field (gateBytes handler) 0 2 = handler.toNat % 2 ^ 16 := Elf.field_leBytes _ _ _
  have second : Elf.field (gateBytes handler) 6 2 = handler.toNat / 2 ^ 16 % 2 ^ 16 := by
    simp (disch := simp) only [gateBytes, Elf.field_skip, Elf.field_leBytes, leBytes_length, Nat.reduceSub,
      BitVec.toNat_ushiftRight, Nat.shiftRight_eq_div_pow]
    rfl
  have third : Elf.field (gateBytes handler) 8 4 = handler.toNat / 2 ^ 32 % 2 ^ 32 := by
    simp (disch := simp) only [gateBytes, Elf.field_skip, Elf.field_leBytes, leBytes_length, Nat.reduceSub,
      BitVec.toNat_ushiftRight, Nat.shiftRight_eq_div_pow]
    rfl
  have selector : Elf.field (gateBytes handler) 2 2 = 8 := by
    simp (disch := simp) only [gateBytes, Elf.field_skip, Elf.field_leBytes, leBytes_length, Nat.reduceSub]
    rfl
  have attributes (o n : Nat) : Elf.field (gateBytes handler) (4 + o) n =
      Elf.field (leBytes 2 0x8E00 ++ (leBytes 2 (handler >>> 16).toNat ++ (leBytes 4 (handler >>> 32).toNat ++ leBytes 4 0)))
        o n := by
    have one : 4 + o - 2 = 2 + o := by omega
    have two : 2 + o - 2 = o := by omega
    rw [gateBytes, Elf.field_skip (by simp; omega), leBytes_length, one, Elf.field_skip (by simp), leBytes_length, two]
  have ist : Elf.field (gateBytes handler) 4 1 = 0 := attributes 0 1
  have access : Elf.field (gateBytes handler) 5 1 = 0x8E := attributes 1 1
  have whole : handler.toNat % 2 ^ 16 + handler.toNat / 2 ^ 16 % 2 ^ 16 * 2 ^ 16 + handler.toNat / 2 ^ 32 % 2 ^ 32 * 2 ^ 32 =
      handler.toNat := by
    have := handler.isLt
    omega
  simp only [Gate.ofBytes, first, second, third, selector, ist, access, whole, BitVec.ofNat_toNat, BitVec.setWidth_eq]
  rfl

namespace Memory

variable {m : Memory} {a : Word} {bs cs : List Byte}

/-- One write behind the other. -/
theorem write_append (fits : bs.length + cs.length ≤ 2 ^ 64) :
    (m.write a bs).write (a + BitVec.ofNat 64 bs.length) cs = m.write a (bs ++ cs) := by
  funext x
  rcases Nat.eq_zero_or_pos cs.length with empty | positive
  · rw [List.length_eq_zero_iff.mp empty, List.append_nil]
    simp [write]
  by_cases first : (x - a).toNat < bs.length
  · have outside : cs.length ≤ (x - (a + BitVec.ofNat 64 bs.length)).toNat := by bv_omega
    rw [write_of_le outside]
    simp only [write, List.getElem?_append_left first]
  · have distance : (x - (a + BitVec.ofNat 64 bs.length)).toNat = (x - a).toNat - bs.length := by bv_omega
    have behind := Nat.le_of_not_lt first
    simp only [write, distance, List.getElem?_append_right behind, List.getElem?_eq_none behind, Option.getD_none]

/-- A store that a longer write covers. -/
theorem write_cover (n : Nat) (v : Word) (covered : n ≤ bs.length) : (m.store a n v).write a bs = m.write a bs := by
  funext x
  by_cases inside : (x - a).toNat < bs.length
  · simp only [write, List.getElem?_eq_getElem inside, Option.getD_some]
  · have outside := Nat.le_of_not_lt inside
    rw [write_of_le outside, write_of_le outside, store_of_le (covered.trans outside)]

theorem write_onlyIn (m : Memory) (a : Word) (bs : List Byte) : OnlyIn a bs.length m (m.write a bs) :=
  fun _ outside => write_of_le outside

end Memory

theorem gateAt_write (m : Memory) (table handler : Word) (v : Nat) :
    gateAt (m.write (table + BitVec.ofNat 64 (16 * v)) (gateBytes handler)) table v = interruptGate handler := by
  have back := Memory.bytes_write m (table + BitVec.ofNat 64 (16 * v)) (gateBytes handler)
    (by rw [gateBytes_length]; decide)
  rw [gateBytes_length] at back
  rw [gateAt, back, ofBytes_gateBytes]

theorem gateAt_congr {m m' : Memory} {table : Word} {v : Nat} (same : Memory.SameOn table 4096 m m') (small : v < 256) :
    gateAt m' table v = gateAt m table v := by
  rw [gateAt, gateAt, Memory.bytes_congr fun i inside => same _ (by bv_omega)]

/-- The gates of the other vectors stay. -/
theorem gateAt_other {m m' : Memory} {table : Word} {v w : Nat} (same : Memory.OnlyIn (table + BitVec.ofNat 64 (16 * v)) 16 m m')
    (other : w ≠ v) (small : v < 256 ∧ w < 256) : gateAt m' table w = gateAt m table w := by
  rw [gateAt, gateAt, Memory.bytes_congr fun i inside => same _ (by bv_omega)]

end Aclm.X64
