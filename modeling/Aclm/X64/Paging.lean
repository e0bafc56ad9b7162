import Aclm.X64.Elf

/-! Four-level paging: the walk of a linear address through the tables in memory. -/

set_option autoImplicit false

namespace Aclm.X64.Paging

/-- Where a linear address leads, and what the entries on the way permit. -/
structure Translation where
  address : Nat
  writable : Bool
  user : Bool
  deriving DecidableEq, Repr

/-- The frame of `2 ^ n` bytes that an entry names: its bits from `n` to 51. -/
def frame (n entry : Nat) : Nat := entry % 2 ^ 52 / 2 ^ n * 2 ^ n

/-- The entry of the table at `base` that the nine bits of the linear address from `n` on select, when it is present. -/
def entry (read : Nat → Option Nat) (base n linear : Nat) : Option Nat :=
  (read (base + 8 * (linear / 2 ^ n % 512))).filter (·.testBit 0)

/-- The last step of a walk: a page of `2 ^ n` bytes, permitted what every entry permits. The bits of a large page between
its page attribute and its frame are reserved. -/
def page (n linear : Nat) (entries : List Nat) (last : Nat) : Option Translation :=
  if last % 2 ^ n < 2 ^ 13 then
    some ⟨frame n last + linear % 2 ^ n, (last :: entries).all (·.testBit 1), (last :: entries).all (·.testBit 2)⟩
  else none

/-- The walk from the root table. Bit 7 of an entry of the second or third table ends it at a large page. -/
def walk (read : Nat → Option Nat) (root linear : Nat) : Option Translation := do
  let e4 ← entry read (frame 12 root) 39 linear
  if e4.testBit 7 then none else
  let e3 ← entry read (frame 12 e4) 30 linear
  if e3.testBit 7 then page 30 linear [e4] e3 else
  let e2 ← entry read (frame 12 e3) 21 linear
  if e2.testBit 7 then page 21 linear [e4, e3] e2 else
  let e1 ← entry read (frame 12 e2) 12 linear
  page 12 linear [e4, e3, e2] e1

/-- A walk that ends at a page of 2 MiB. -/
theorem walk_large {read : Nat → Option Nat} {root linear e4 e3 e2 : Nat}
    (first : entry read (frame 12 root) 39 linear = some e4) (table : e4.testBit 7 = false)
    (second : entry read (frame 12 e4) 30 linear = some e3) (table' : e3.testBit 7 = false)
    (third : entry read (frame 12 e3) 21 linear = some e2) (large : e2.testBit 7 = true) :
    walk read root linear = page 21 linear [e4, e3] e2 := by
  simp [walk, first, table, second, table', third, large]

end Aclm.X64.Paging

namespace Aclm.X64.Elf

/-- The number in the `n` bytes loaded from an address on. -/
def number (file : List Byte) (a : Nat) : Nat → Option Nat
  | 0 => some 0
  | n + 1 => do
    let low ← memory file a
    let high ← number file (a + 1) n
    some (low.toNat + 256 * high)

theorem LoadedAt.number {file bs : List Byte} {a i n : Nat} (loaded : LoadedAt file a bs) (inside : i + n ≤ bs.length) :
    number file (a + i) n = some (field bs i n) := by
  induction n generalizing i with
  | zero => simp [Elf.number, field, leValue]
  | succ n ih =>
    have first := loaded i (by omega)
    have rest := ih (show i + 1 + n ≤ bs.length by omega)
    have shape : bs.drop i = bs[i] :: bs.drop (i + 1) := List.drop_eq_getElem_cons (by omega)
    simp only [Elf.number, Nat.add_assoc, first, rest, field, shape, List.take_succ_cons, leValue, Option.bind_eq_bind,
      Option.bind_some]

end Aclm.X64.Elf
