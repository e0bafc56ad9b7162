import Aclm.Encoder.Meets

/-! Code that, once entered, is never left. A run inside a range of the text goes on for ever where it keeps coming
back to states of some kind. -/

set_option autoImplicit false

namespace Aclm

open X64 (Machine State Cond Cpu)

namespace X64.Machine

variable {M : Machine} {lo hi : Nat} {s t : State}

/-- The run from a state inside the range does not end. -/
def Endless (M : Machine) (lo hi : Nat) (s : State) : Prop :=
  ¬ Acc (fun t s => lo ≤ s.pc ∧ s.pc < hi ∧ M.step s = some t) s

theorem Inside.acc (run : M.Inside lo hi s t) (left : hi ≤ t.pc) :
    Acc (fun t s => lo ≤ s.pc ∧ s.pc < hi ∧ M.step s = some t) s := by
  induction run using Relation.ReflTransGen.head_induction_on with
  | refl => exact ⟨_, fun _ once => absurd once.2.1 (Nat.not_lt.mpr left)⟩
  | head once _ ih =>
    refine ⟨_, fun u other => ?_⟩
    obtain rfl := Option.some.inj (once.2.2.symm.trans other.2.2)
    exact ih

namespace Endless

theorem mono {lo' hi' : Nat} (endless : M.Endless lo hi s) (lower : lo' ≤ lo) (upper : hi ≤ hi') : M.Endless lo' hi' s := by
  intro ends
  refine endless (Subrelation.accessible (fun {t s} once => ?_) ends)
  exact ⟨lower.trans once.1, once.2.1.trans_le upper, once.2.2⟩

/-- The run goes on for ever from an earlier state. -/
theorem of_inside (run : M.Inside lo hi s t) (endless : M.Endless lo hi t) : M.Endless lo hi s := by
  induction run using Relation.ReflTransGen.head_induction_on with
  | refl => exact endless
  | head once _ ih => exact fun ends => ih (ends.inv once)

/-- The states of a kind that a nonempty run leads back to. -/
theorem of_rounds {P : State → Prop}
    (round : ∀ s, P s → ∃ m t, lo ≤ s.pc ∧ s.pc < hi ∧ M.step s = some m ∧ M.Inside lo hi m t ∧ P t) (here : P s) :
    M.Endless lo hi s := by
  intro ends
  have farther := ends.transGen
  clear ends
  induction farther with
  | intro s _ ih =>
    obtain ⟨m, t, lower, upper, once, rest, there⟩ := round s here
    have ahead : Relation.TransGen (fun s t => lo ≤ s.pc ∧ s.pc < hi ∧ M.step s = some t) s t :=
      .head' ⟨lower, upper, once⟩ rest
    exact ih t (Relation.transGen_swap.mp ahead) there

/-- A run that leaves the range ends. -/
theorem not_completes {c d : Cpu} (endless : M.Endless lo hi ⟨lo, c⟩) : ¬ M.Completes lo hi c d :=
  fun run => endless (run.acc (Nat.le_refl hi))

end Endless

end X64.Machine

namespace Encoder

/-- Entered in `c`, the code is never left at its end. -/
def Listing.Endless (L : Listing) (calls : List Call) (c : Cpu) : Prop :=
  ∀ M, L.Loaded M → ∀ i, L.At i calls → M.Endless (L.offset i) (L.offset (i + calls.length)) ⟨L.offset i, c⟩

/-- A jump is a step of the machine. -/
theorem Listing.Loaded.jmp_step {L : Listing} {M : Machine} (loaded : L.Loaded M) {i j : Nat} {target : String}
    (here : L.At i [.jmp target]) (defined : L.Defines j target) (c : Cpu) :
    M.step ⟨L.offset i, c⟩ = some ⟨L.offset j, c⟩ := by
  have fetched := loaded.fetch (k := .jmp (L.disp i (.jmp target))) here trivial rfl
  simp only [Machine.step, fetched, Option.bind_eq_bind, Option.bind_some, Machine.perform,
    loaded.target i (.jmp target) rfl defined, Option.map_some]

namespace Listing.Endless

variable {L : Listing} {c : Cpu}

theorem left {as : List Call} (endless : L.Endless as c) (bs : List Call) : L.Endless (as ++ bs) c := by
  intro M loaded i here
  refine (endless M loaded i (here.append as).1).mono (Nat.le_refl _) (offset_le ?_)
  rw [List.length_append]
  omega

theorem append {as bs : List Call} {P : Cpu → Prop} (first : L.Meets as c P) (second : ∀ m, P m → L.Endless bs m) :
    L.Endless (as ++ bs) c := by
  intro M loaded i here
  obtain ⟨front, rest⟩ := here.append as
  obtain ⟨m, run, p⟩ := first i front
  rw [List.length_append, ← Nat.add_assoc]
  have endless := second m p M loaded _ rest
  exact (endless.mono (offset_le (by omega)) (Nat.le_refl _)).of_inside
    ((loaded.inside run).mono (Nat.le_refl _) (offset_le (by omega)))

/-- The test never leaves the loop: `I` holds in front of it and `T` behind it. -/
theorem guarded {cond top done : String} {k : Cond} (named : jumpCondition cond = some k) {test body : List Call}
    {I T : Cpu → Prop} (tests : ∀ c, I c → L.Meets test c fun d => T d ∧ k.holds d.flags = false)
    (round : ∀ c, T c → L.Meets body c I) (start : I c) : L.Endless (guarded cond top done test body) c := by
  intro M loaded i here
  have length : (Encoder.guarded cond top done test body).length = test.length + body.length + 4 := by
    simp [Encoder.guarded]
    omega
  obtain ⟨front, last⟩ := here.append _
  obtain ⟨front, inner⟩ := front.append _
  obtain ⟨front, jump⟩ := front.append _
  obtain ⟨label, before⟩ := front.append _
  obtain ⟨back, -⟩ := last.cons
  simp only [List.length_append, List.length_cons, List.length_nil] at before jump inner back
  rw [length]
  obtain ⟨stop, ending⟩ : ∃ p, i + (test.length + body.length + 4) = p := ⟨_, rfl⟩
  obtain ⟨p, place⟩ : ∃ p, i + (0 + 1 + test.length + (0 + 1) + body.length) = p := ⟨_, rfl⟩
  rw [place] at back
  rw [ending]
  -- Once around, from the start to the jump back to it.
  have around (c : Cpu) (here : I c) :
      ∃ d, M.Inside (L.offset i) (L.offset stop) ⟨L.offset i, c⟩ ⟨L.offset p, d⟩ ∧ I d := by
    obtain ⟨m, run, tested, stays⟩ := tests c here _ before
    obtain ⟨d, once, next⟩ := round m tested _ inner
    refine ⟨d, ?_, next⟩
    refine loaded.inside (s := (i, c)) (t := (p, d)) ?_
    refine Inside.trans (.single (Nat.le_refl i) (show i < _ by omega) (.straight label (effect_label ..))) ?_
    refine (run.mono (by omega) (by omega)).trans ?_
    rw [show i + (0 + 1) + test.length = i + (0 + 1 + test.length) by omega]
    refine (Inside.fall jump named stays (by omega) (by omega)).trans ?_
    rw [show p = i + (0 + 1 + test.length + (0 + 1)) + body.length by omega]
    exact once.mono (by omega) (by omega)
  obtain ⟨d, run, there⟩ := around c start
  refine .of_inside run (.of_rounds (P := fun s => ∃ d, s = ⟨L.offset p, d⟩ ∧ I d) ?_ ⟨d, rfl, there⟩)
  rintro _ ⟨d, rfl, there⟩
  obtain ⟨e, run, there'⟩ := around d there
  refine ⟨_, _, offset_le (show i ≤ p by omega), ?_, loaded.jmp_step back label d, run, e, rfl, there'⟩
  have next := offset_succ back
  have size : Call.size L.deterministic (.jmp top) = 5 := by cases L.deterministic <;> rfl
  have within : L.offset (p + 1) ≤ L.offset stop := offset_le (by omega)
  show L.offset p < L.offset stop
  omega

end Listing.Endless

end Encoder

end Aclm
