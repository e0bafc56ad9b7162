import Aclm.FileTable
import Aclm.X64.Strip

/-! A table of files in memory: eight slots of 32 bytes, each a name with a NUL behind it, the data at 16 and the length
at 24. A slot without a name is free. -/

set_option autoImplicit false

namespace Aclm.X64.Memory

variable {m m' : Memory} {p q b : Word} {name other : FileName}

/-! ### Names -/

/-- The name stands at `p`, with a NUL behind it. -/
structure Spelled (m : Memory) (p : Word) (name : FileName) : Prop where
  string : Terminated m p name.1.length
  bytes : m.bytes p name.1.length = name.1

namespace Spelled

theorem sameOn (spelled : Spelled m p name) (same : SameOn p (name.1.length + 1) m m') : Spelled m' p name := by
  have small := spelled.string.below
  refine ⟨spelled.string.sameOn same, ?_⟩
  rw [(same.mono (Nat.le_succ _)).bytes small.le, spelled.bytes]

theorem byte (spelled : Spelled m p name) {i : Nat} (less : i < name.1.length) :
    name.1[i]? = some (m (p + BitVec.ofNat 64 i)) := by
  have here : (m.bytes p name.1.length)[i]? = some (m (p + BitVec.ofNat 64 i)) := by simp [Memory.bytes, less]
  rwa [spelled.bytes] at here

/-- Names are the same as far as their bytes are, the NUL included. -/
theorem eq_iff (spelled : Spelled m p name) (spelled' : Spelled m q other) :
    name = other ↔ ∀ i ≤ name.1.length, m (p + BitVec.ofNat 64 i) = m (q + BitVec.ofNat 64 i) := by
  constructor
  · rintro rfl i le
    rcases le.lt_or_eq with less | rfl
    · exact Option.some.inj ((spelled.byte less).symm.trans (spelled'.byte less))
    · exact spelled.string.nul.trans spelled'.string.nul.symm
  · intro same
    have length := spelled.string.length_eq spelled'.string same
    refine Subtype.ext ?_
    rw [← spelled.bytes, ← spelled'.bytes, ← length]
    exact bytes_eq_iff.mpr fun i less => same i less.le

theorem none (zero : m p = 0) : Spelled m p .none :=
  ⟨⟨by decide, by simpa [FileName.none] using zero, fun i less => absurd less (Nat.not_lt_zero i)⟩, rfl⟩

/-- The bytes of a name, copied and closed with a NUL. -/
theorem cut (spelled : Spelled m p name) (copied : ∀ i < name.cut.1.length, m' (q + BitVec.ofNat 64 i) = m (p + BitVec.ofNat 64 i))
    (nul : m' (q + BitVec.ofNat 64 name.cut.1.length) = 0) : Spelled m' q name.cut := by
  have le : name.cut.1.length ≤ name.1.length := by simp [FileName.cut]
  have short : name.cut.1.length ≤ 15 := List.length_take_le 15 name.1
  refine ⟨⟨by omega, nul, fun i less => ?_⟩, ?_⟩
  · rw [copied i less]
    exact spelled.string.first i (by omega)
  · refine List.ext_getElem? fun i => ?_
    by_cases less : i < name.cut.1.length
    · have within : i < 15 := by omega
      have taken : name.cut.1[i]? = name.1[i]? := List.getElem?_take_of_lt within
      rw [taken, spelled.byte (less.trans_le le), ← copied i less]
      simp [Memory.bytes, less]
    · rw [List.getElem?_eq_none (by simpa using less), List.getElem?_eq_none (Nat.le_of_not_lt less)]

end Spelled

/-! ### Slots -/

def slot (b : Word) (i : Nat) : Word := b + BitVec.ofNat 64 (32 * i)

structure Slot (m : Memory) (a : Word) (f : File) : Prop where
  name : Spelled m a f.name
  data : m.load (a + 16) 8 = f.data
  length : m.load (a + 24) 8 = f.length

theorem Slot.sameOn {a : Word} {f : File} (here : Slot m a f) (same : SameOn a 32 m m') : Slot m' a f := by
  have short := f.short
  refine ⟨here.name.sameOn (same.mono (by omega)), ?_, ?_⟩
  · exact (same.load (i := 16) (k := 8) (by decide) (by decide)).trans here.data
  · exact (same.load (i := 24) (k := 8) (by decide) (by decide)).trans here.length

/-- The table `t` stands at `b`. -/
structure Table (m : Memory) (b : Word) (t : FileTable) : Prop where
  files : ∀ i f, t.1[i]? = some f → Slot m (slot b i) f
  free : ∀ i, t.1.length ≤ i → i < 8 → m (slot b i) = 0

namespace Table

variable {t : FileTable}

theorem of_zeros (zeros : Zeros b 256 m) : Table m b .empty where
  files _ _ found := by cases found
  free i _ less := zeros _ (by unfold slot; bv_omega)

theorem sameOn (table : Table m b t) (same : SameOn b 256 m m') : Table m' b t := by
  refine ⟨fun i f found => (table.files i f found).sameOn fun x inside => same x ?_, fun i lower less => ?_⟩
  · have less := (List.getElem?_eq_some_iff.mp found).1
    have room := t.2
    unfold slot at inside
    bv_omega
  · rw [same _ (by unfold slot; bv_omega)]
    exact table.free i lower less

/-- Other slots are not in the way. -/
theorem outside {i j : Nat} (only : OnlyIn (slot b i) 32 m m') (other : j ≠ i) (small : i < 8) (small' : j < 8) :
    SameOn (slot b j) 32 m m' := fun x inside => only x (by unfold slot at *; bv_omega)

/-- The name of a slot; it is none exactly behind the files. -/
theorem named (table : Table m b t) {i : Nat} (less : i < 8) :
    Spelled m (slot b i) (t.nameAt i) := by
  unfold FileTable.nameAt
  cases found : t.1[i]? with
  | none => exact .none (table.free i (List.getElem?_eq_none_iff.mp found) less)
  | some f => exact (table.files i f found).name

theorem free_iff (table : Table m b t) {i : Nat} (less : i < 8) : m (slot b i) = 0 ↔ t.1.length ≤ i := by
  refine ⟨fun zero => ?_, fun lower => table.free i lower less⟩
  by_contra taken
  have inside := Nat.lt_of_not_le taken
  have here := table.files i _ (List.getElem?_eq_getElem inside)
  have positive := List.length_pos_of_ne_nil t.1[i].nonempty
  have first := here.name.string.first 0 positive
  rw [BitVec.add_zero] at first
  exact first zero

/-- The slot behind the files is filled. -/
theorem put (table : Table m b t) (only : OnlyIn (slot b t.1.length) 32 m m') (room : t.1.length < 8) {data length : Word}
    (spelled : Spelled m' (slot b t.1.length) name.cut) (stored : m'.load (slot b t.1.length + 16) 8 = data)
    (stored' : m'.load (slot b t.1.length + 24) 8 = length) : Table m' b (t.put name data length) := by
  have kept {j : Nat} (other : j ≠ t.1.length) (small : j < 8) : SameOn (slot b j) 32 m m' := outside only other room small
  by_cases nonempty : name.1 = []
  · -- Without a name the slot stays free.
    have same : t.put name data length = t := dif_neg fun both => both.1 nonempty
    rw [same]
    refine ⟨fun i f found => ?_, fun i lower less => ?_⟩
    · have inside := (List.getElem?_eq_some_iff.mp found).1
      exact (table.files i f found).sameOn (kept inside.ne (inside.trans room))
    · by_cases here : i = t.1.length
      · have nul := spelled.string.nul
        have empty : name.cut.1.length = 0 := by simp [FileName.cut, nonempty]
        rw [empty, BitVec.add_zero] at nul
        rw [here]
        exact nul
      · rw [kept here less _ (by simp)]
        exact table.free i lower less
  · have shape : (t.put name data length).1 = t.1 ++ [.cut name nonempty data length] :=
      congrArg Subtype.val (dif_pos (And.intro nonempty room))
    refine ⟨fun i f found => ?_, fun i lower less => ?_⟩
    · rw [shape] at found
      rcases Nat.lt_trichotomy i t.1.length with inside | rfl | behind
      · rw [List.getElem?_append_left inside] at found
        exact (table.files i f found).sameOn (kept inside.ne (inside.trans room))
      · rw [List.getElem?_concat_length] at found
        cases found
        exact ⟨spelled, stored, stored'⟩
      · rw [List.getElem?_eq_none (by rw [List.length_append, List.length_singleton]; exact behind)] at found
        cases found
    · rw [shape, List.length_append, List.length_singleton] at lower
      rw [kept (by omega) less _ (by simp)]
      exact table.free i (by omega) less

/-- A slot that has the name that is looked for, and none before it. -/
theorem get (table : Table m b t) {i : Nat} (nonempty : name.1 ≠ [])
    (same : t.nameAt i = name)
    (before : ∀ j < i, t.nameAt j ≠ name) : m.load (slot b i + 16) 8 = t.get name := by
  cases found : t.1[i]? with
  | none =>
    rw [FileTable.nameAt, found, Option.elim_none] at same
    exact absurd (congrArg Subtype.val same.symm) nonempty
  | some f =>
    rw [FileTable.nameAt, found, Option.elim_some] at same
    obtain ⟨inside, value⟩ := List.getElem?_eq_some_iff.mp found
    have first : (t.1.find? fun f => f.name = name) = some f := by
      refine List.find?_eq_some_iff_getElem.mpr ⟨by simpa using same, i, inside, value, fun j earlier => ?_⟩
      have other := before j earlier
      rw [FileTable.nameAt, List.getElem?_eq_getElem (earlier.trans inside), Option.elim_some] at other
      simpa using other
    rw [FileTable.get, first, (table.files i f found).data]
    rfl

theorem get_none (before : ∀ j < 8, t.nameAt j ≠ name) : t.get name = 0 := by
  have none : (t.1.find? fun f => f.name = name) = none := by
    refine List.find?_eq_none.mpr fun f member same => ?_
    obtain ⟨j, inside, rfl⟩ := List.getElem_of_mem member
    have other := before j (inside.trans_le t.2)
    rw [FileTable.nameAt, List.getElem?_eq_getElem inside, Option.elim_some] at other
    exact other (of_decide_eq_true same)
  rw [FileTable.get, none]
  rfl

end Table

end Aclm.X64.Memory
