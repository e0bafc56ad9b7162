import Aclm.Codegen.Frames

/-! The words of a function's locals: which declared sizes keep them apart from each other, from the
saved registers and from what is pushed below the stack pointer. -/

set_option autoImplicit false

namespace Aclm.Codegen

open X64 (Word Reg Cpu Machine)
open X64.Memory (Separate)
open Encoder

/-- The bytes of the first `k` locals, each size rounded up to whole words. -/
def sizedTo (sizes : List Int) (k : Nat) : Int := ((sizes.take k).map (roundUp 8)).sum

/-- The offset of the local behind the first `k`. -/
def slotOff (sizes : List Int) (k : Nat) : Int := -(32 + sizedTo sizes (k + 1))

/-- An offset that the displacement of an instruction can hold; the encoder refuses others. -/
def Addressable (off : Int) : Prop := -2 ^ 31 ≤ off ∧ off < 2 ^ 31

/-- The words of the locals, in a state with the function's frame. -/
structure SlotsApart (slots : Dict Int) (c : Cpu) : Prop where
  words : ∀ name name' off off', name ≠ name' → slots.get? name = some off → slots.get? name' = some off' →
    Addressable off → Addressable off' →
      Separate (c.reg .rbp + BitVec.ofInt 64 off) 8 (c.reg .rbp + BitVec.ofInt 64 off') 8
  saved : ∀ name off, slots.get? name = some off → Addressable off →
    Separate (c.reg .rbp + BitVec.ofInt 64 off) 8 (c.reg .rbp - 32) 48
  above : ∀ name off, slots.get? name = some off → Addressable off →
    0 ≤ (c.reg .rbp + BitVec.ofInt 64 off - c.reg .rsp).toInt

/-- The sums of the sizes are pairwise different, none is in the frame that is saved, and none exceeds
the room that is made in the end. -/
structure Spread (sizes : List Int) : Prop where
  distinct : ∀ j k, j < k → k < sizes.length → Addressable (slotOff sizes j) → Addressable (slotOff sizes k) →
    sizedTo sizes (j + 1) ≠ sizedTo sizes (k + 1)
  outside : ∀ k < sizes.length, Addressable (slotOff sizes k) → 0 < sizedTo sizes (k + 1) ∨ sizedTo sizes (k + 1) ≤ -48
  covered : ∀ k < sizes.length, Addressable (slotOff sizes k) →
    sizedTo sizes (k + 1) ≤ roundUp 16 (sizedTo sizes sizes.length)

/-! ### Sums -/

section Sums

variable {size : Int} {sizes : List Int} {k : Nat}

@[simp] theorem sizedTo_zero (sizes : List Int) : sizedTo sizes 0 = 0 := rfl

@[simp] theorem sizedTo_cons (size : Int) (sizes : List Int) (k : Nat) :
    sizedTo (size :: sizes) (k + 1) = roundUp 8 size + sizedTo sizes k := by
  simp [sizedTo]

theorem sizedTo_aligned (sizes : List Int) (k : Nat) : sizedTo sizes k % 8 = 0 := by
  induction sizes generalizing k with
  | nil => simp [sizedTo]
  | cons size sizes ih =>
    cases k with
    | zero => rfl
    | succ k =>
      have := ih k
      rw [sizedTo_cons, roundUp]
      omega

/-- With positive sizes every local adds a word. -/
theorem sizedTo_lt (positive : ∀ size ∈ sizes, 0 < size) {j : Nat} (less : j < k) (le : k ≤ sizes.length) :
    sizedTo sizes j < sizedTo sizes k := by
  induction sizes generalizing j k with
  | nil => simp at le; omega
  | cons size sizes ih =>
    obtain ⟨k, rfl⟩ : ∃ k', k = k' + 1 := ⟨k - 1, by omega⟩
    have word : 8 ≤ roundUp 8 size := by
      have := positive size List.mem_cons_self
      rw [roundUp]
      omega
    have more := fun {j k} => @ih k (fun s member => positive s (List.mem_cons_of_mem _ member)) j
    rw [List.length_cons] at le
    cases j with
    | zero =>
      rw [sizedTo_cons, sizedTo_zero]
      cases k with
      | zero =>
        rw [sizedTo_zero]
        omega
      | succ k =>
        have tail : sizedTo sizes 0 < sizedTo sizes (k + 1) := more (Nat.succ_pos k) (by omega)
        rw [sizedTo_zero] at tail
        omega
    | succ j =>
      rw [sizedTo_cons, sizedTo_cons]
      have := more (by omega : j < k) (by omega)
      omega

theorem Spread.of_positive (positive : ∀ size ∈ sizes, 0 < size) : Spread sizes := by
  refine ⟨fun j k less lt _ _ => ?_, fun k lt _ => .inl ?_, fun k lt _ => ?_⟩
  · exact (sizedTo_lt positive (by omega) (by omega)).ne
  · exact sizedTo_lt positive (Nat.succ_pos k) (by omega)
  · have le : sizedTo sizes (k + 1) ≤ sizedTo sizes sizes.length := by
      rcases Nat.lt_or_ge (k + 1) sizes.length with less | last
      · exact (sizedTo_lt positive less (Nat.le_refl _)).le
      · rw [show k + 1 = sizes.length by omega]
    rw [roundUp]
    omega

end Sums

/-- The offsets and the room as the declarations give them. -/
theorem placeLocals_total (locals : List (String × Int)) (d : Dict Int) (total : Int) :
    (placeLocals locals (d, total)).2 = total + sizedTo (locals.map Prod.snd) locals.length := by
  induction locals generalizing d total with
  | nil => simp [placeLocals]
  | cons l rest ih =>
    simp only [placeLocals, ih, List.map_cons, List.length_cons, sizedTo_cons]
    omega

theorem slotOff_cons (size : Int) (sizes : List Int) (k : Nat) :
    slotOff (size :: sizes) (k + 1) = slotOff sizes k - roundUp 8 size := by
  simp only [slotOff, sizedTo_cons]
  omega

theorem placeLocals_get (locals : List (String × Int)) (distinct : (locals.map Prod.fst).Nodup) (d : Dict Int) (total : Int)
    (name : String) (off : Int) :
    (placeLocals locals (d, total)).1.get? name = some off ↔
      (∃ k l, locals[k]? = some l ∧ l.1 = name ∧ off = slotOff (locals.map Prod.snd) k - total) ∨
        name ∉ locals.map Prod.fst ∧ d.get? name = some off := by
  induction locals generalizing d total with
  | nil => simp [placeLocals]
  | cons l rest ih =>
    obtain ⟨fresh, distinct⟩ := List.nodup_cons.mp distinct
    have first : slotOff ((l :: rest).map Prod.snd) 0 = -(32 + roundUp 8 l.2) := by simp [slotOff]
    have later (k : Nat) : slotOff ((l :: rest).map Prod.snd) (k + 1) - total =
        slotOff (rest.map Prod.snd) k - (total + roundUp 8 l.2) := by
      rw [List.map_cons, slotOff_cons]
      omega
    rw [placeLocals, ih distinct, Dict.get?_set]
    constructor
    · rintro (⟨k, l', found, same, rfl⟩ | ⟨other, found⟩)
      · exact .inl ⟨k + 1, l', found, same, (later k).symm⟩
      · split at found
        · next here =>
          cases found
          exact .inl ⟨0, l, rfl, here, by rw [first]; omega⟩
        · next elsewhere => exact .inr ⟨by simp [other, Ne.symm elsewhere], found⟩
    · rintro (⟨k, l', found, same, rfl⟩ | ⟨other, found⟩)
      · cases k with
        | zero =>
          cases found
          subst same
          refine .inr ⟨fresh, ?_⟩
          rw [if_pos rfl, first]
          congr 1
          omega
        | succ k => exact .inl ⟨k, l', found, same, later k⟩
      · simp only [List.map_cons, List.mem_cons, not_or] at other
        exact .inr ⟨other.2, by rw [if_neg (Ne.symm other.1)]; exact found⟩

/-! ### Words of the frame -/

theorem ofInt_sub_toNat (x : Word) (a b : Int) :
    ((x + BitVec.ofInt 64 b - (x + BitVec.ofInt 64 a)).toNat : Int) = (b - a) % 2 ^ 64 := by
  have difference : x + BitVec.ofInt 64 b - (x + BitVec.ofInt 64 a) = BitVec.ofInt 64 (b - a) := by
    have sum := BitVec.ofInt_add (n := 64) (b - a) a
    rw [sub_add_cancel] at sum
    rw [sum]
    bv_omega
  rw [difference, BitVec.toNat_ofInt]
  exact Int.toNat_of_nonneg (Int.emod_nonneg _ (by decide))

/-- Near a base, words are separate where their offsets are. -/
theorem separate_iff {x : Word} {a b : Int} {n k : Nat} (near : a - b < 2 ^ 63) (near' : b - a < 2 ^ 63)
    (small : n < 2 ^ 62 ∧ k < 2 ^ 62) (positive : 0 < n ∧ 0 < k) :
    Separate (x + BitVec.ofInt 64 a) n (x + BitVec.ofInt 64 b) k ↔ a + n ≤ b ∨ b + k ≤ a := by
  have distance := ofInt_sub_toNat x a b
  unfold Separate
  omega

/-- The state behind the prologue: a frame at `x`, with `room` bytes below the saved registers. -/
theorem slotsApart_iff {locals : List (String × Int)} (distinct : (locals.map Prod.fst).Nodup) {p : Cpu} {room : Int}
    (total : room = roundUp 16 (sizedTo (locals.map Prod.snd) locals.length)) (range : Addressable room)
    (sp : p.reg .rsp = p.reg .rbp + BitVec.ofInt 64 (-(32 + room))) :
    SlotsApart (placeLocals locals ([], 0)).1 p ↔ Spread (locals.map Prod.snd) := by
  have get (name : String) (off : Int) : (placeLocals locals ([], 0)).1.get? name = some off ↔
      ∃ k l, locals[k]? = some l ∧ l.1 = name ∧ off = slotOff (locals.map Prod.snd) k := by
    have both := placeLocals_get locals distinct [] 0 name off
    simpa [Dict.get?] using both
  have at' {k : Nat} (lt : k < (locals.map Prod.snd).length) : ∃ l, locals[k]? = some l := by
    rw [List.length_map] at lt
    exact ⟨_, List.getElem?_eq_getElem lt⟩
  have before {k : Nat} {l : String × Int} (found : locals[k]? = some l) : k < (locals.map Prod.snd).length := by
    rw [List.length_map]
    exact (List.getElem?_eq_some_iff.mp found).1
  have named {j k : Nat} {l l' : String × Int} (less : j < k) (foundJ : locals[j]? = some l) (foundK : locals[k]? = some l') :
      l.1 ≠ l'.1 := by
    have lt : k < (locals.map Prod.fst).length := by simpa using before foundK
    simpa [foundJ, foundK] using List.nodup_iff_getElem?_ne_getElem?.mp distinct j k less lt
  have aligned (k : Nat) := sizedTo_aligned (locals.map Prod.snd) k
  have frame : p.reg .rbp - 32 = p.reg .rbp + BitVec.ofInt 64 (-32) := by
    change _ = _ + (-32 : Word)
    bv_omega
  -- A slot is above the stack pointer exactly where its offset is not below the room of the frame.
  have above (off : Int) (fits : Addressable off) :
      0 ≤ (p.reg .rbp + BitVec.ofInt 64 off - p.reg .rsp).toInt ↔ -(32 + room) ≤ off := by
    have distance := ofInt_sub_toNat (p.reg .rbp) (-(32 + room)) off
    rw [sp, BitVec.toInt_eq_toNat_cond]
    unfold Addressable at fits range
    split <;> omega
  constructor
  · intro apart
    refine ⟨fun j k less lt fitsJ fitsK same => ?_, fun k lt fits => ?_, fun k lt fits => ?_⟩
    · obtain ⟨l, foundJ⟩ := at' (less.trans lt)
      obtain ⟨l', foundK⟩ := at' lt
      -- Distances between addresses become distances between the offsets, which fit a displacement.
      have words := apart.words l.1 l'.1 _ _ (named less foundJ foundK) ((get _ _).mpr ⟨j, l, foundJ, rfl, rfl⟩)
        ((get _ _).mpr ⟨k, l', foundK, rfl, rfl⟩) fitsJ fitsK
      unfold Addressable at fitsJ fitsK
      rw [separate_iff (by omega) (by omega) (by decide) (by decide)] at words
      unfold slotOff at words
      omega
    · obtain ⟨l, found⟩ := at' lt
      have words := apart.saved l.1 _ ((get _ _).mpr ⟨k, l, found, rfl, rfl⟩) fits
      unfold Addressable at fits
      rw [frame, separate_iff (by omega) (by omega) (by decide) (by decide)] at words
      unfold slotOff at words
      have := aligned (k + 1)
      omega
    · obtain ⟨l, found⟩ := at' lt
      have words := (above _ fits).mp (apart.above l.1 _ ((get _ _).mpr ⟨k, l, found, rfl, rfl⟩) fits)
      unfold slotOff at words
      rw [List.length_map]
      omega
  · intro spread
    refine ⟨fun name name' off off' other here there fits fits' => ?_, fun name off here fits => ?_, fun name off here fits => ?_⟩
    · obtain ⟨j, l, foundJ, rfl, rfl⟩ := (get _ _).mp here
      obtain ⟨k, l', foundK, rfl, rfl⟩ := (get _ _).mp there
      -- Sums of sizes are multiples of eight, so slots at different sums are a word apart.
      have different : sizedTo (locals.map Prod.snd) (j + 1) ≠ sizedTo (locals.map Prod.snd) (k + 1) := by
        rcases Nat.lt_trichotomy j k with less | rfl | more
        · exact spread.distinct j k less (before foundK) fits fits'
        · rw [foundJ] at foundK
          cases foundK
          exact absurd rfl other
        · exact (spread.distinct k j more (before foundJ) fits' fits).symm
      have wordJ := aligned (j + 1)
      have wordK := aligned (k + 1)
      unfold Addressable at fits fits'
      rw [separate_iff (by omega) (by omega) (by decide) (by decide)]
      unfold slotOff
      omega
    · obtain ⟨k, l, found, rfl, rfl⟩ := (get _ _).mp here
      have outside := spread.outside k (before found) fits
      have word := aligned (k + 1)
      unfold Addressable at fits
      rw [frame, separate_iff (by omega) (by omega) (by decide) (by decide)]
      unfold slotOff
      omega
    · obtain ⟨k, l, found, rfl, rfl⟩ := (get _ _).mp here
      have covered := spread.covered k (before found) fits
      rw [above _ fits, total]
      unfold slotOff
      rw [List.length_map] at covered
      omega

/-- The words of the locals are apart exactly where the sums of the declared sizes keep them so, which
they do when every size is positive. -/
theorem local_slots_iff {g h : CodeGenerator} {name : String} {args : List String} {locals : List (String × Int)}
    (distinct : (locals.map Prod.fst).Nodup) (entered : enterFn name args locals g = .ok () h) :
    ∃ calls, h.script = g.script ++ calls ∧ ∀ (L : Listing) (M : Machine), L.Loaded M → ∀ i, L.At i calls → ∀ c : Cpu,
      ∃ p, M.Completes (L.offset i) (L.offset (i + calls.length)) c p ∧
        (SlotsApart h.fnLocals p ↔ Spread (locals.map Prod.snd)) := by
  simp only [enterFn, asm_bind_ok, modify_ok] at entered
  refine ⟨prologueCalls name (placeLocals locals ([], 0)).2, by rw [entered]; simp [prologueCalls, pushes], ?_⟩
  have slots : h.fnLocals = (placeLocals locals ([], 0)).1 := by rw [entered]
  intro L M loaded i here c
  obtain ⟨p, run, rbp, -, sp⟩ := prologue_meets name (placeLocals locals ([], 0)).2 c i here
  refine ⟨p, loaded.inside run, ?_⟩
  rw [slots]
  obtain ⟨room, known⟩ : ∃ room, roundUp 16 (placeLocals locals ([], 0)).2 = room := ⟨_, rfl⟩
  rw [known] at sp
  refine @slotsApart_iff locals distinct p room ?_ ?_ ?_
  · rw [← known, placeLocals_total, zero_add]
  · by_cases none : room = 0
    · rw [none]
      exact ⟨by decide, by decide⟩
    -- The room is an immediate of the prologue.
    have member : subRegImm .rsp room ∈ prologueCalls name (placeLocals locals ([], 0)).2 := by
      simp [prologueCalls, frameCalls, known, none]
    obtain ⟨bs, encoded⟩ := loaded.encoded _ (List.mem_of_mem_drop (here.subset member))
    obtain ⟨field, ok, -⟩ := bind_eq_ok.mp encoded
    obtain ⟨lower, upper, -⟩ := s32_range ok
    exact ⟨lower, upper⟩
  · have negated : BitVec.ofInt 64 (-(32 + room)) = -32 - BitVec.ofInt 64 room := by
      rw [BitVec.ofInt_neg, BitVec.ofInt_add]
      change -((32 : Word) + _) = _
      bv_omega
    rw [sp, rbp, negated]
    bv_omega

/-- Two locals of positive sizes. -/
theorem local_slots_iff_two : ∃ (h : CodeGenerator) (L : Listing) (M : Machine) (p : Cpu),
    enterFn "f" [] [("x", 5), ("y", 16)] (.new false) = .ok () h ∧ L.Loaded M ∧
      M.Completes 0 (L.offset L.calls.length) (Cpu.filled 64) p ∧ SlotsApart h.fnLocals p := by
  obtain ⟨h, entered⟩ : ∃ h, enterFn "f" [] [("x", 5), ("y", 16)] (.new false) = .ok () h := ⟨_, rfl⟩
  obtain ⟨calls, script, runs⟩ := local_slots_iff (by decide) entered
  obtain rfl : h.script = calls := script
  obtain ⟨L, M, loaded, listed, -, -⟩ := Listing.exists_loaded h.script [] .silent (by cases entered; decide)
  obtain ⟨p, run, apart⟩ := runs L M loaded 0 (by rw [← listed]; exact List.prefix_refl _) (Cpu.filled 64)
  rw [Nat.zero_add, ← listed] at run
  exact ⟨h, L, M, p, entered, loaded, run, apart.mpr (.of_positive (by decide))⟩

/-- A local of size 0 lies over the saved R14. -/
theorem local_slots_wrong : ∃ h : CodeGenerator, enterFn "f" [] [("x", 0)] (.new false) = .ok () h ∧
    ∀ p : Cpu, ¬SlotsApart h.fnLocals p := by
  refine ⟨_, rfl, fun p apart => ?_⟩
  obtain ⟨far, -⟩ := apart.saved "x" (-32) rfl ⟨by decide, by decide⟩
  change 8 ≤ (p.reg .rbp - 32 - (p.reg .rbp + (-32 : Word))).toNat at far
  bv_omega

end Aclm.Codegen
