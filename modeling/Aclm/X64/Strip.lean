import Aclm.X64.Region
import Mathlib.Logic.Function.Iterate

/-! Bytes one after the other: a byte that fills a range, a copy that goes forward, and strings that end with a NUL. -/

set_option autoImplicit false

namespace Aclm.X64

open Memory (SameAbove SameOn)

/-- A memory, where the next byte goes, and the byte itself or where it comes from. -/
structure Strip where
  mem : Memory
  target : Word
  source : Word

namespace Strip

def fill (s : Strip) : Strip := ⟨s.mem.store s.target 1 s.source, s.target + 1, s.source⟩

def copy (s : Strip) : Strip := ⟨s.mem.store s.target 1 (s.mem.load s.source 1), s.target + 1, s.source + 1⟩

/-- A step writes the byte at the target and goes on to the next one. -/
structure Writes (step : Strip → Strip) : Prop where
  target : ∀ s, (step s).target = s.target + 1
  mem : ∀ s x, x ≠ s.target → (step s).mem x = s.mem x

theorem store_byte_of_ne {m : Memory} {a x v : Word} (other : x ≠ a) : m.store a 1 v x = m x :=
  Memory.store_of_le (by bv_omega)

theorem writes_fill : Writes fill := ⟨fun _ => rfl, fun _ _ other => store_byte_of_ne other⟩

theorem writes_copy : Writes copy := ⟨fun _ => rfl, fun _ _ other => store_byte_of_ne other⟩

/-- Bytes that are not in the way are not written. -/
theorem Writes.outside {step : Strip → Strip} (writes : Writes step) (n : Nat) (s : Strip) {x : Word}
    (far : n ≤ (x - s.target).toNat) : (step^[n] s).mem x = s.mem x := by
  induction n generalizing s with
  | zero => rfl
  | succ n ih =>
    have other : x ≠ s.target := by bv_omega
    rw [Function.iterate_succ_apply, ih (step s) (by rw [writes.target]; bv_omega), writes.mem s x other]

/-- What is written does not depend on the bytes below `p`, unless they are copied. -/
theorem fill_sameAbove {p : Word} {k : Nat} {m m' : Memory} (same : SameAbove p k m m') (a v : Word) (n : Nat) :
    SameAbove p k (fill^[n] ⟨m, a, v⟩).mem (fill^[n] ⟨m', a, v⟩).mem := by
  induction n generalizing m m' a with
  | zero => exact same
  | succ n ih => exact ih (same.store a 1 v) (a + 1)

/-- The bytes filled in. -/
theorem fill_byte (n : Nat) (s : Strip) {x : Word} (near : (x - s.target).toNat < n) :
    (fill^[n] s).mem x = BitVec.ofNat 8 s.source.toNat := by
  induction n generalizing s with
  | zero => omega
  | succ n ih =>
    rw [Function.iterate_succ_apply]
    by_cases here : x = s.target
    · by_cases wraps : n ≤ (x - (s.target + 1)).toNat
      · rw [writes_fill.outside n s.fill wraps, here]
        exact Memory.store_front Nat.one_pos
      · exact ih s.fill (by simpa [fill] using wraps)
    · exact ih s.fill (show (x - (s.target + 1)).toNat < n by bv_omega)

/-- A copy onto itself changes nothing. -/
theorem copy_self (n : Nat) (m : Memory) (a : Word) : (copy^[n] ⟨m, a, a⟩).mem = m := by
  induction n generalizing a with
  | zero => rfl
  | succ n ih =>
    have back : m.store a 1 (m.load a 1) = m := by
      funext x
      by_cases here : x = a
      · rw [here, Memory.store_front Nat.one_pos, Memory.load_front Nat.one_pos]
      · exact store_byte_of_ne here
    rw [Function.iterate_succ_apply, copy, back]
    exact ih (a + 1)

/-- The first byte copied stays where it was copied to. -/
theorem copy_front (n : Nat) (s : Strip) (fits : n < 2 ^ 64) (positive : 0 < n) :
    (copy^[n] s).mem s.target = s.mem s.source := by
  obtain ⟨n, rfl⟩ := Nat.exists_eq_succ_of_ne_zero positive.ne'
  rw [Function.iterate_succ_apply, writes_copy.outside n s.copy (show n ≤ (s.target - (s.target + 1)).toNat by bv_omega)]
  show s.mem.store s.target 1 (s.mem.load s.source 1) s.target = s.mem s.source
  rw [Memory.store_front Nat.one_pos, Memory.load_front Nat.one_pos]

theorem copy_places (n : Nat) (s : Strip) :
    (copy^[n] s).target = s.target + BitVec.ofNat 64 n ∧ (copy^[n] s).source = s.source + BitVec.ofNat 64 n := by
  induction n generalizing s with
  | zero => simp
  | succ n ih =>
    obtain ⟨target, source⟩ := ih s.copy
    rw [Function.iterate_succ_apply, target, source]
    simp only [copy]
    constructor <;> bv_omega

/-- One more byte. -/
theorem copy_succ (n : Nat) (m : Memory) (a b : Word) : (copy^[n + 1] ⟨m, a, b⟩).mem =
    (copy^[n] ⟨m, a, b⟩).mem.store (a + BitVec.ofNat 64 n) 1 ((copy^[n] ⟨m, a, b⟩).mem.load (b + BitVec.ofNat 64 n) 1) := by
  obtain ⟨target, source⟩ := copy_places n ⟨m, a, b⟩
  rw [Function.iterate_succ_apply', copy, target, source]

/-- A copy to a place apart from its source. -/
theorem copy_apart {m : Memory} {a b : Word} {n k : Nat} (apart : Memory.Separate a k b k) (le : n ≤ k) (x : Word) :
    (copy^[n] ⟨m, a, b⟩).mem x = if (x - a).toNat < n then m (b + (x - a)) else m x := by
  obtain ⟨far, fits⟩ := apart
  induction n generalizing x with
  | zero => simp
  | succ n ih =>
    rw [copy_succ]
    have byte : (copy^[n] ⟨m, a, b⟩).mem (b + BitVec.ofNat 64 n) = m (b + BitVec.ofNat 64 n) := by
      rw [ih (by omega), if_neg (by bv_omega)]
    by_cases here : x = a + BitVec.ofNat 64 n
    · have offset : x - a = BitVec.ofNat 64 n := by bv_omega
      rw [here, Memory.store_front Nat.one_pos, Memory.load_front Nat.one_pos, byte, ← here, offset, if_pos (by bv_omega)]
    · rw [store_byte_of_ne here, ih (by omega)]
      have same : (x - a).toNat < n ↔ (x - a).toNat < n + 1 := by
        constructor <;> intro less <;> bv_omega
      simp only [same]

end Strip

/-! ### Strings -/

namespace Memory

variable {m m' : Memory} {p q : Word} {n k : Nat}

/-- A byte is loaded without a sign. -/
theorem load_byte (m : Memory) (a : Word) : m.load a 1 = (m a).setWidth 64 := by
  apply BitVec.eq_of_toNat_eq
  simp [load, bytes, leValue, List.range_one]

theorem load_byte_inj {a b : Word} : m.load a 1 = m'.load b 1 ↔ m a = m' b := by
  rw [load_byte, load_byte]
  constructor
  · intro same
    bv_omega
  · rintro same
    rw [same]

theorem load_byte_eq_zero {a : Word} : m.load a 1 = 0 ↔ m a = 0 := by
  rw [load_byte]
  constructor <;> intro zero <;> bv_omega

/-- The first NUL from `p` on is `n` bytes away. -/
structure Terminated (m : Memory) (p : Word) (n : Nat) : Prop where
  below : n < 2 ^ 64
  nul : m (p + BitVec.ofNat 64 n) = 0
  first : ∀ i < n, m (p + BitVec.ofNat 64 i) ≠ 0

namespace Terminated

theorem sameOn (string : Terminated m p n) (same : SameOn p (n + 1) m m') : Terminated m' p n := by
  have small := string.below
  have here (i : Nat) (le : i ≤ n) : m' (p + BitVec.ofNat 64 i) = m (p + BitVec.ofNat 64 i) := same _ (by bv_omega)
  refine ⟨small, (here n (Nat.le_refl n)).trans string.nul, fun i less => ?_⟩
  rw [here i less.le]
  exact string.first i less

theorem nul_iff (string : Terminated m p n) {i : Nat} (le : i ≤ n) : m (p + BitVec.ofNat 64 i) = 0 ↔ i = n := by
  constructor
  · intro zero
    by_contra other
    exact string.first i (by omega) zero
  · rintro rfl
    exact string.nul

theorem unique (string : Terminated m p n) (string' : Terminated m p k) : n = k := by
  rcases Nat.lt_trichotomy n k with less | same | more
  · exact absurd string.nul (string'.first n less)
  · exact same
  · exact absurd string'.nul (string.first k more)

/-- Strings that agree up to the end of one have the same length. -/
theorem length_eq (string : Terminated m p n) (string' : Terminated m q k)
    (same : ∀ i ≤ n, m (p + BitVec.ofNat 64 i) = m (q + BitVec.ofNat 64 i)) : n = k := by
  rcases Nat.lt_trichotomy n k with less | same' | more
  · exact absurd ((same n (Nat.le_refl n)).symm.trans string.nul) (string'.first n less)
  · exact same'
  · exact absurd ((same k more.le).trans string'.nul) (string.first k more)

end Terminated

/-- From every place a NUL is found, unless there is none at all. -/
theorem terminated_or (m : Memory) (p : Word) : (∃ n, Terminated m p n) ∨ ∀ x, m x ≠ 0 := by
  by_cases found : ∃ n, m (p + BitVec.ofNat 64 n) = 0
  · refine .inl ⟨Nat.find found, ?_, Nat.find_spec found, fun i less => Nat.find_min found less⟩
    obtain ⟨n, zero⟩ := found
    refine (Nat.find_le (n := n % 2 ^ 64) ?_).trans_lt (Nat.mod_lt _ (by decide))
    rwa [show BitVec.ofNat 64 (n % 2 ^ 64) = BitVec.ofNat 64 n by bv_omega]
  · refine .inr fun x zero => found ⟨(x - p).toNat, ?_⟩
    rwa [show p + BitVec.ofNat 64 (x - p).toNat = x by bv_omega]

theorem bytes_eq_iff : m.bytes p n = m'.bytes q n ↔ ∀ i < n, m (p + BitVec.ofNat 64 i) = m' (q + BitVec.ofNat 64 i) := by
  simp [bytes, List.map_inj_left]

/-- The bytes up to and including the NUL are the same. -/
theorem Terminated.bytes_eq (string : Terminated m p n) (string' : Terminated m q k) :
    m.bytes p (n + 1) = m.bytes q (k + 1) ↔ ∀ i ≤ n, m (p + BitVec.ofNat 64 i) = m (q + BitVec.ofNat 64 i) := by
  constructor
  · intro same
    have length : n + 1 = k + 1 := by simpa using congrArg List.length same
    obtain rfl : n = k := by omega
    exact fun i le => bytes_eq_iff.mp same i (by omega)
  · intro same
    obtain rfl := string.length_eq string' same
    exact bytes_eq_iff.mpr fun i less => same i (by omega)

end Memory

end Aclm.X64
