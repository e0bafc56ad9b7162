import Aclm.Encoder.Meets

/-! Code that can be left at its end or by a jump to a label that stands somewhere else. The rules take a jump as a
second way out, and a label that is put behind the code takes the jumps to it in again. -/

set_option autoImplicit false

namespace Aclm.Encoder

open X64 (Word Reg Cond Cpu)

/-- Entered in `c`, the code is left at its end in a state that `Q` holds of, or goes to a label in a state that `out`
holds of with the label. -/
def Listing.Leaves (L : Listing) (calls : List Call) (c : Cpu) (out : String → Cpu → Prop) (Q : Cpu → Prop) : Prop :=
  ∀ i, L.At i calls → (∃ d, L.Inside i (i + calls.length) (i, c) (i + calls.length, d) ∧ Q d) ∨
    ∃ name d, out name d ∧ ∀ j, L.Defines j name → L.Inside i (i + calls.length) (i, c) (j, d)

namespace Listing

variable {L : Listing} {calls : List Call} {c : Cpu} {out out' : String → Cpu → Prop} {P Q : Cpu → Prop}

theorem Meets.leaves (meets : L.Meets calls c Q) : L.Leaves calls c out Q := fun i here => .inl (meets i here)

namespace Leaves

theorem straight {d : Cpu} (ran : effects L.env L.address calls c = some d) (q : Q d) : L.Leaves calls c out Q :=
  (Meets.straight ran q).leaves

theorem mono (leaves : L.Leaves calls c out P) (jumps : ∀ name d, out name d → out' name d) (ends : ∀ d, P d → Q d) :
    L.Leaves calls c out' Q := by
  intro i here
  rcases leaves i here with ⟨d, run, p⟩ | ⟨name, d, left, run⟩
  · exact .inl ⟨d, run, ends d p⟩
  · exact .inr ⟨name, d, jumps name d left, run⟩

theorem jmp {target : String} (left : out target c) : L.Leaves [.jmp target] c out Q :=
  fun i here => .inr ⟨target, c, left, fun _ defined => .jmp here defined (Nat.le_refl i) (Nat.lt_succ_self i)⟩

theorem jcc {cond target : String} {k : Cond} (named : jumpCondition cond = some k)
    (taken : k.holds c.flags = true → out target c) (falls : k.holds c.flags = false → Q c) :
    L.Leaves [.jcc cond target] c out Q := by
  intro i here
  cases decided : k.holds c.flags with
  | true =>
    exact .inr ⟨target, c, taken decided, fun _ defined =>
      .taken here named decided defined (Nat.le_refl i) (Nat.lt_succ_self i)⟩
  | false => exact .inl ⟨c, .fall here named decided (Nat.le_refl i) (Nat.lt_succ_self i), falls decided⟩

theorem append {as bs : List Call} (first : L.Leaves as c out P) (second : ∀ m, P m → L.Leaves bs m out Q) :
    L.Leaves (as ++ bs) c out Q := by
  intro i here
  obtain ⟨front, rest⟩ := here.append as
  rw [List.length_append, ← Nat.add_assoc]
  rcases first i front with ⟨m, run, p⟩ | ⟨name, d, left, run⟩
  · have run := run.mono (Nat.le_refl i) (show _ ≤ i + as.length + bs.length by omega)
    rcases second m p _ rest with ⟨d, more, q⟩ | ⟨name, d, left, more⟩
    · exact .inl ⟨d, run.trans (more.mono (by omega) (Nat.le_refl _)), q⟩
    · exact .inr ⟨name, d, left, fun j defined => run.trans ((more j defined).mono (by omega) (Nat.le_refl _))⟩
  · exact .inr ⟨name, d, left, fun j defined => (run j defined).mono (Nat.le_refl i) (by omega)⟩

/-- The code and a label behind it: the jumps to the label stay inside. -/
theorem label {name : String} (leaves : L.Leaves calls c out P) (ends : ∀ d, P d → Q d)
    (jumps : ∀ target d, out target d → target = name ∧ Q d ∨ out' target d) :
    L.Leaves (calls ++ [.label name]) c out' Q := by
  intro i here
  obtain ⟨front, last⟩ := here.append calls
  rw [List.length_append, List.length_singleton, ← Nat.add_assoc]
  have close (d : Cpu) : L.Inside i (i + calls.length + 1) (i + calls.length, d) (i + calls.length + 1, d) :=
    .single (show i ≤ i + calls.length by omega) (Nat.lt_succ_self _) (.straight last (effect_label ..))
  rcases leaves i front with ⟨d, run, p⟩ | ⟨target, d, left, run⟩
  · exact .inl ⟨d, (run.mono (Nat.le_refl i) (Nat.le_succ _)).trans (close d), ends d p⟩
  · have run (j : Nat) (defined : L.Defines j target) := (run j defined).mono (Nat.le_refl i) (Nat.le_succ _)
    rcases jumps target d left with ⟨rfl, q⟩ | left
    · exact .inl ⟨d, (run _ last).trans (close d), q⟩
    · exact .inr ⟨target, d, left, run⟩

/-- `I n` holds where `n` more rounds follow; a round can be the last one by a jump out of it. -/
theorem repeated {cond top : String} {k : Cond} (named : jumpCondition cond = some k) {body : List Call}
    {I : Nat → Cpu → Prop}
    (round : ∀ n c, I (n + 1) c → L.Leaves body c out fun d => I n d ∧ k.holds d.flags = decide (n ≠ 0)) {n : Nat}
    (start : I (n + 1) c) : L.Leaves (repeated cond top body) c out (I 0) := by
  intro i here
  have length : (Encoder.repeated cond top body).length = body.length + 2 := by simp [Encoder.repeated]
  obtain ⟨front, jump⟩ := here.append _
  obtain ⟨label, middle⟩ := front.append _
  simp only [List.length_append, List.length_cons, List.length_nil] at jump middle
  rw [length]
  have enter (c : Cpu) : L.Inside i (i + (body.length + 2)) (i, c) (i + (0 + 1), c) :=
    .single (Nat.le_refl i) (show i < _ by omega) (.straight label (effect_label ..))
  have ending : i + (0 + 1) + body.length = i + (0 + 1 + body.length) := by omega
  induction n generalizing c with
  | zero =>
    rcases round 0 c start _ middle with ⟨d, run, done, falls⟩ | ⟨name, d, left, run⟩
    · refine .inl ⟨d, (enter c).trans ((run.mono (by omega) (by omega)).trans ?_), done⟩
      rw [ending, show i + (body.length + 2) = i + (0 + 1 + body.length) + 1 by omega]
      exact .fall jump named falls (by omega) (by omega)
    · exact .inr ⟨name, d, left, fun j defined => (enter c).trans ((run j defined).mono (by omega) (by omega))⟩
  | succ n ih =>
    rcases round (n + 1) c start _ middle with ⟨m, run, next, again⟩ | ⟨name, d, left, run⟩
    · have back : L.Inside i (i + (body.length + 2)) (i, c) (i, m) := by
        refine (enter c).trans ((run.mono (by omega) (by omega)).trans ?_)
        rw [ending]
        exact .taken jump named again label (by omega) (by omega)
      rcases ih next with ⟨d, rest, done⟩ | ⟨name, d, left, rest⟩
      · exact .inl ⟨d, back.trans rest, done⟩
      · exact .inr ⟨name, d, left, fun j defined => back.trans (rest j defined)⟩
    · exact .inr ⟨name, d, left, fun j defined => (enter c).trans ((run j defined).mono (by omega) (by omega))⟩

/-- Code that no jump leaves. -/
theorem meets (leaves : L.Leaves calls c (fun _ _ => False) Q) : L.Meets calls c Q := by
  intro i here
  rcases leaves i here with ended | ⟨_, _, left, _⟩
  · exact ended
  · exact left.elim

end Leaves

end Listing

end Aclm.Encoder
