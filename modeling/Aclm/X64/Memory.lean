import Aclm.X64.Word

/-! Byte memory over the 64-bit address circle, words in it, and the downward-growing stack.
Every distance is taken on the circle, so nothing here assumes where an address lies. -/

set_option autoImplicit false

namespace Aclm.X64

abbrev Memory := Word → Byte

namespace Memory

def bytes (m : Memory) (a : Word) (n : Nat) : List Byte :=
  (List.range n).map fun i => m (a + BitVec.ofNat 64 i)

def write (m : Memory) (a : Word) (bs : List Byte) : Memory :=
  fun x => (bs[(x - a).toNat]?).getD (m x)

/-- The little-endian number in the `n` bytes at `a`, as a zero-extended word. -/
def load (m : Memory) (a : Word) (n : Nat) : Word := BitVec.ofNat 64 (leValue (m.bytes a n))

/-- The `n` low bytes of `v` at `a`. -/
def store (m : Memory) (a : Word) (n : Nat) (v : Word) : Memory := m.write a (leBytes n v.toNat)

/-- The memories agree outside the `n` bytes just below `p`. -/
def SameAbove (p : Word) (n : Nat) (m m' : Memory) : Prop :=
  ∀ x : Word, (x - p).toNat + n < 2 ^ 64 → m' x = m x

/-- The eight bytes at `a` avoid the `n` bytes just below `p`. -/
def WordAbove (p : Word) (n : Nat) (a : Word) : Prop := (a - p).toNat + 8 + n ≤ 2 ^ 64

/-- The `k` bytes at `a` avoid the `n` bytes just below `p`. -/
def RangeAbove (p : Word) (n : Nat) (a : Word) (k : Nat) : Prop := (a - p).toNat + k + n ≤ 2 ^ 64

/-- The words on the stack whose top is at `p`, top first. -/
def StackAt (m : Memory) : Word → List Word → Prop
  | _, [] => True
  | p, w :: ws => m.load p 8 = w ∧ StackAt m (p + 8) ws

@[simp] theorem bytes_length (m : Memory) (a : Word) (n : Nat) : (m.bytes a n).length = n := by
  simp [bytes]

theorem bytes_congr {m m' : Memory} {a : Word} {n : Nat}
    (same : ∀ i < n, m' (a + BitVec.ofNat 64 i) = m (a + BitVec.ofNat 64 i)) :
    m'.bytes a n = m.bytes a n :=
  List.map_congr_left fun i member => same i (List.mem_range.mp member)

theorem load_congr {m m' : Memory} {a : Word} {n : Nat}
    (same : ∀ i < n, m' (a + BitVec.ofNat 64 i) = m (a + BitVec.ofNat 64 i)) :
    m'.load a n = m.load a n := by
  rw [load, load, bytes_congr same]

theorem write_of_le {m : Memory} {a x : Word} {bs : List Byte} (far : bs.length ≤ (x - a).toNat) :
    m.write a bs x = m x := by
  simp only [write, List.getElem?_eq_none far, Option.getD_none]

theorem write_offset {m : Memory} {a : Word} {bs : List Byte} {i : Nat} (bound : i < bs.length)
    (fits : i < 2 ^ 64) : m.write a bs (a + BitVec.ofNat 64 i) = bs[i] := by
  have offset : (a + BitVec.ofNat 64 i - a).toNat = i := by bv_omega
  simp only [write, offset, List.getElem?_eq_getElem bound, Option.getD_some]

theorem bytes_write (m : Memory) (a : Word) (bs : List Byte) (fits : bs.length ≤ 2 ^ 64) :
    (m.write a bs).bytes a bs.length = bs := by
  apply List.ext_getElem (by simp)
  intro i left right
  simp only [bytes, List.getElem_map, List.getElem_range]
  exact write_offset right (by omega)

theorem load_store (m : Memory) (a : Word) (n : Nat) (v : Word) (fits : n ≤ 8) :
    (m.store a n v).load a n = BitVec.ofNat 64 (v.toNat % 256 ^ n) := by
  have back := bytes_write m a (leBytes n v.toNat) (by simp; omega)
  rw [leBytes_length] at back
  rw [load, store, back, leValue_leBytes]

@[simp] theorem load_store_word (m : Memory) (a v : Word) : (m.store a 8 v).load a 8 = v := by
  rw [load_store m a 8 v (le_refl 8), Nat.mod_eq_of_lt (by have := v.isLt; norm_num; omega)]
  simp

theorem store_of_le {m : Memory} {a x v : Word} {n : Nat} (far : n ≤ (x - a).toNat) :
    m.store a n v x = m x :=
  write_of_le (by simpa using far)

/-- A word apart from the bytes stored is kept. -/
theorem load_store_of_above {m : Memory} {p a v : Word} {n k : Nat} (above : RangeAbove p n a k) :
    (m.store a k v).load (p - BitVec.ofNat 64 n) n = m.load (p - BitVec.ofNat 64 n) n := by
  refine load_congr fun i small => store_of_le ?_
  simp only [RangeAbove] at above
  bv_omega

/-- The byte that a store leaves at its address. -/
theorem store_front {m : Memory} {a v : Word} {n : Nat} (positive : 0 < n) : m.store a n v a = BitVec.ofNat 8 v.toNat := by
  obtain ⟨k, rfl⟩ : ∃ k, n = k + 1 := ⟨n - 1, by omega⟩
  simp [store, write, leBytes]

/-- The lowest byte of what is loaded is the one at the address. -/
theorem load_front {m : Memory} {a : Word} {n : Nat} (positive : 0 < n) : BitVec.ofNat 8 (m.load a n).toNat = m a := by
  obtain ⟨k, rfl⟩ : ∃ k, n = k + 1 := ⟨n - 1, by omega⟩
  have here : a + BitVec.ofNat 64 0 = a := by simp
  have low := (m a).isLt
  apply BitVec.eq_of_toNat_eq
  simp only [load, bytes, List.range_succ_eq_map, List.map_cons, leValue, here, BitVec.toNat_ofNat]
  omega

namespace SameAbove

variable {p : Word} {n k : Nat} {m m' m'' : Memory}

theorem refl (p : Word) (n : Nat) (m : Memory) : SameAbove p n m m := fun _ _ => rfl

theorem trans (first : SameAbove p n m m') (second : SameAbove p n m' m'') : SameAbove p n m m'' :=
  fun x above => (second x above).trans (first x above)

theorem mono (same : SameAbove p n m m') (le : n ≤ k) : SameAbove p k m m' :=
  fun x above => same x (by omega)

/-- What happens below a lower stack pointer stays below the higher one. -/
theorem lower (same : SameAbove (p - BitVec.ofNat 64 k) n m m') (fits : k < 2 ^ 64) :
    SameAbove p (n + k) m m' :=
  fun x above => same x (by
    have shifted : (x - (p - BitVec.ofNat 64 k)).toNat = (x - p).toNat + k := by bv_omega
    omega)

theorem store_below (v : Word) : SameAbove p 8 m (m.store (p - 8) 8 v) := by
  intro x above
  apply store_of_le
  have shifted : (x - (p - 8)).toNat = (x - p).toNat + 8 := by bv_omega
  omega

/-- The same store keeps two memories the same. -/
theorem store (same : SameAbove p n m m') (a : Word) (k : Nat) (v : Word) :
    SameAbove p n (m.store a k v) (m'.store a k v) := by
  intro x above
  simp only [Memory.store, write, same x above]

theorem load (same : SameAbove p n m m') {a : Word} (above : WordAbove p n a) :
    m'.load a 8 = m.load a 8 := by
  refine load_congr fun i small => same _ ?_
  simp only [WordAbove] at above
  have shifted : (a + BitVec.ofNat 64 i - p).toNat = (a - p).toNat + i := by bv_omega
  omega

/-- Read literally: where the window does not wrap, nothing at or above `p` has changed. -/
theorem at_or_above (same : SameAbove p n m m') (room : n ≤ p.toNat) {x : Word} (above : p ≤ x) :
    m' x = m x := by
  refine same x ?_
  rw [BitVec.le_def] at above
  have := x.isLt
  bv_omega

theorem stackAt (same : SameAbove p n m m') {ws : List Word} (stack : StackAt m p ws)
    (fits : 8 * ws.length + n ≤ 2 ^ 64) : StackAt m' p ws := by
  suffices general : ∀ k : Nat, 8 * ws.length + k + n ≤ 2 ^ 64 →
      StackAt m (p + BitVec.ofNat 64 k) ws → StackAt m' (p + BitVec.ofNat 64 k) ws by
    simpa using general 0 (by omega) (by simpa using stack)
  clear stack fits
  induction ws with
  | nil => intros; trivial
  | cons w ws ih =>
    intro k fits stack
    simp only [List.length_cons] at fits
    have next : p + BitVec.ofNat 64 k + 8 = p + BitVec.ofNat 64 (k + 8) := by bv_omega
    have here : WordAbove p n (p + BitVec.ofNat 64 k) := by
      have : (p + BitVec.ofNat 64 k - p).toNat = k := by bv_omega
      simp only [WordAbove, this]
      omega
    rw [StackAt, next] at stack ⊢
    exact ⟨(same.load here).trans stack.1, ih (k + 8) (by omega) stack.2⟩

end SameAbove

/-- Any number of words can be read off as a stack. -/
theorem stackAt_read (m : Memory) (p : Word) (n : Nat) :
    StackAt m p ((List.range n).map fun i => m.load (p + BitVec.ofNat 64 (8 * i)) 8) := by
  induction n generalizing p with
  | zero => trivial
  | succ n ih =>
    have above (i : Nat) : p + BitVec.ofNat 64 (8 * (i + 1)) = p + 8 + BitVec.ofNat 64 (8 * i) := by bv_omega
    rw [List.range_succ_eq_map, List.map_cons, List.map_map]
    refine ⟨by simp, ?_⟩
    simpa [Function.comp_def, above] using ih (p + 8)

theorem StackAt.append {m : Memory} {p : Word} {ws vs : List Word} (stack : StackAt m p (ws ++ vs)) :
    StackAt m p ws ∧ StackAt m (p + BitVec.ofNat 64 (8 * ws.length)) vs := by
  induction ws generalizing p with
  | nil => exact ⟨trivial, by simpa using stack⟩
  | cons w ws ih =>
    obtain ⟨front, rest⟩ := ih stack.2
    have shift : p + 8 + BitVec.ofNat 64 (8 * ws.length) = p + BitVec.ofNat 64 (8 * (w :: ws).length) := by
      simp only [List.length_cons]
      bv_omega
    exact ⟨⟨stack.1, front⟩, shift ▸ rest⟩

/-- A push: one more word on a stack that leaves room for it on the circle. -/
theorem StackAt.push {m : Memory} {p : Word} {ws : List Word} (stack : StackAt m p ws) (v : Word)
    (fits : 8 * (ws.length + 1) ≤ 2 ^ 64) : StackAt (m.store (p - 8) 8 v) (p - 8) (v :: ws) := by
  have back : p - 8 + 8 = p := by bv_omega
  refine ⟨load_store_word m (p - 8) v, ?_⟩
  rw [back]
  exact (SameAbove.store_below v).stackAt stack (by omega)

end Memory

end Aclm.X64
