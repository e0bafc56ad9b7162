import Aclm.Encoder.Confined

/-! Code that runs to its end inside itself, wherever it stands in a listing, and ends in a state of some kind.
One rule for each way code is put together: straight lines, sequences, two-way branches, counted loops and
registers kept around a piece. -/

set_option autoImplicit false

namespace Aclm.Encoder

open X64 (Word Reg Cond Cpu)
open X64.Memory (SameOn)

/-- Entered in `c`, the code is left at its end in a state that `Q` holds of. -/
def Listing.Meets (L : Listing) (calls : List Call) (c : Cpu) (Q : Cpu → Prop) : Prop :=
  ∀ i, L.At i calls → ∃ d, L.Inside i (i + calls.length) (i, c) (i + calls.length, d) ∧ Q d

/-- A piece of code that is repeated while the condition holds after it. -/
def repeated (cond top : String) (body : List Call) : List Call := [.label top] ++ body ++ [.jcc cond top]

/-- A piece of code that is repeated until the condition holds after the test in front of it. -/
def guarded (cond top done : String) (test body : List Call) : List Call :=
  [.label top] ++ test ++ [.jcc cond done] ++ body ++ [.jmp top, .label done]

/-- A piece of code that is repeated until one of two tests leaves it, each for an end of its own. -/
def searched (cond cond' top stop stop' done : String) (test test' body stopped stopped' : List Call) : List Call :=
  [.label top] ++ test ++ [.jcc cond stop] ++ test' ++ [.jcc cond' stop'] ++ body ++ [.jmp top, .label stop'] ++ stopped' ++
    [.jmp done, .label stop] ++ stopped ++ [.label done]

namespace Listing

variable {L : Listing}

theorem Inside.mono {lo hi lo' hi' : Nat} {s t : Nat × Cpu} (run : L.Inside lo hi s t) (lower : lo' ≤ lo)
    (upper : hi ≤ hi') : L.Inside lo' hi' s t :=
  Relation.ReflTransGen.mono (fun _ _ once => ⟨lower.trans once.1, once.2.1.trans_le upper, once.2.2⟩) _ _ run

/-- The same, wherever the memory is touched. -/
theorem meets_iff {calls : List Call} {c : Cpu} {Q : Cpu → Prop} : L.Meets calls c Q ↔ L.Confines Set.univ calls c Q :=
  forall₂_congr fun _ _ => exists_congr fun _ => and_congr_left' within_univ.symm

/-- Code inside other code. -/
theorem At.part {i : Nat} {calls : List Call} (here : L.At i calls) (k : Nat) {part : List Call}
    (inside : part <+: calls.drop k) : L.At (i + k) part := by
  obtain ⟨rest, shape⟩ := here
  obtain ⟨more, split⟩ := inside
  by_cases short : k ≤ calls.length
  · refine ⟨more ++ rest, ?_⟩
    rw [← List.drop_drop, ← shape, List.drop_append_of_le_length short, ← split, List.append_assoc]
  · rw [List.drop_eq_nil_of_le (by omega)] at split
    obtain ⟨rfl, -⟩ := List.append_eq_nil_iff.mp split
    exact List.nil_prefix

theorem At.at {i j : Nat} {calls : List Call} (here : L.At i calls) (same : i = j) : L.At j calls := same ▸ here

/-- Code that has no call that touches the memory is confined to every region. -/
theorem Meets.confines {calls : List Call} {c : Cpu} {Q : Cpu → Prop} (meets : L.Meets calls c Q)
    (plain : ∀ call ∈ calls, call.registersOnly = true) (region : Set Word) : L.Confines region calls c Q := by
  intro i here
  obtain ⟨d, run, q⟩ := meets i here
  refine ⟨d, Relation.ReflTransGen.mono (fun s t once => ⟨once.1, once.2.1, once.2.2, fun call at' => ?_⟩) _ _ run, q⟩
  have member : call ∈ calls := by
    obtain ⟨rest, shape⟩ := here
    obtain ⟨rest', shape'⟩ := at'
    have found : (calls ++ rest)[s.1 - i]? = some call := by
      have first : (L.calls.drop s.1)[0]? = some call := by rw [← shape', List.singleton_append, List.getElem?_cons_zero]
      rwa [shape, List.getElem?_drop, Nat.add_sub_cancel' once.1, ← Nat.add_zero s.1, ← List.getElem?_drop]
    rw [List.getElem?_append_left (by have := once.2.1; omega)] at found
    exact List.mem_of_getElem? found
  rw [touches_registersOnly L.env s.2 (plain call member)]
  exact X64.covered_nil

namespace Meets

variable {calls : List Call} {c : Cpu} {P Q : Cpu → Prop}

theorem mono (meets : L.Meets calls c P) (weaker : ∀ d, P d → Q d) : L.Meets calls c Q := by
  intro i here
  obtain ⟨d, run, p⟩ := meets i here
  exact ⟨d, run, weaker d p⟩

theorem straight {d : Cpu} (ran : effects L.env L.address calls c = some d) (q : Q d) : L.Meets calls c Q :=
  fun i here => ⟨d, .straight here ran (Nat.le_refl i) (Nat.le_refl _), q⟩

theorem append {as bs : List Call} (first : L.Meets as c P) (second : ∀ m, P m → L.Meets bs m Q) :
    L.Meets (as ++ bs) c Q := by
  intro i here
  obtain ⟨front, rest⟩ := here.append as
  obtain ⟨m, run, p⟩ := first i front
  obtain ⟨d, more, q⟩ := second m p _ rest
  rw [List.length_append, ← Nat.add_assoc]
  exact ⟨d, (run.mono (Nat.le_refl i) (by omega)).trans (more.mono (by omega) (Nat.le_refl _)), q⟩

theorem either {cond yes done : String} {k : Cond} (named : jumpCondition cond = some k) {first other : List Call}
    (fails : k.holds c.flags = false → L.Meets first c Q) (holds : k.holds c.flags = true → L.Meets other c Q) :
    L.Meets (either cond yes done first other) c Q :=
  meets_iff.mpr (.either named (fun decided => meets_iff.mp (fails decided)) fun decided => meets_iff.mp (holds decided))

/-- `I n` holds where `n` more rounds follow. -/
theorem repeated {cond top : String} {k : Cond} (named : jumpCondition cond = some k) {body : List Call}
    {I : Nat → Cpu → Prop}
    (round : ∀ n c, I (n + 1) c → L.Meets body c fun d => I n d ∧ k.holds d.flags = decide (n ≠ 0)) {n : Nat}
    (start : I (n + 1) c) : L.Meets (repeated cond top body) c (I 0) := by
  intro i here
  have length : (Encoder.repeated cond top body).length = body.length + 2 := by simp [Encoder.repeated]
  obtain ⟨front, jump⟩ := here.append _
  obtain ⟨label, middle⟩ := front.append _
  simp only [List.length_append, List.length_cons, List.length_nil] at jump middle
  rw [length]
  induction n generalizing c with
  | zero =>
    obtain ⟨d, run, done, leaves⟩ := round 0 c start _ middle
    refine ⟨d, ?_, done⟩
    refine Inside.trans (.single (Nat.le_refl i) (show i < _ by omega) (.straight label (effect_label ..))) ?_
    refine (run.mono (by omega) (by omega)).trans ?_
    rw [show i + (0 + 1) + body.length = i + (0 + 1 + body.length) by omega,
      show i + (body.length + 2) = i + (0 + 1 + body.length) + 1 by omega]
    exact Inside.fall jump named leaves (by omega) (by omega)
  | succ n ih =>
    obtain ⟨m, run, next, again⟩ := round (n + 1) c start _ middle
    obtain ⟨d, rest, done⟩ := ih next
    refine ⟨d, ?_, done⟩
    refine Inside.trans (.single (Nat.le_refl i) (show i < _ by omega) (.straight label (effect_label ..))) ?_
    refine (run.mono (by omega) (by omega)).trans ?_
    rw [show i + (0 + 1) + body.length = i + (0 + 1 + body.length) by omega]
    exact (Inside.taken jump named again label (by omega) (by omega)).trans rest

/-- `I n` holds where `n` more rounds follow, and `T n` after the test in front of them. -/
theorem guarded {cond top done : String} {k : Cond} (named : jumpCondition cond = some k) {test body : List Call}
    {I T : Nat → Cpu → Prop}
    (tests : ∀ n c, I n c → L.Meets test c fun d => T n d ∧ k.holds d.flags = decide (n = 0))
    (round : ∀ n c, T (n + 1) c → L.Meets body c (I n)) {n : Nat} (start : I n c) :
    L.Meets (guarded cond top done test body) c (T 0) := by
  intro i here
  have length : (Encoder.guarded cond top done test body).length = test.length + body.length + 4 := by
    simp [Encoder.guarded]
    omega
  obtain ⟨front, last⟩ := here.append _
  obtain ⟨front, inner⟩ := front.append _
  obtain ⟨front, jump⟩ := front.append _
  obtain ⟨label, before⟩ := front.append _
  obtain ⟨back, ending⟩ := last.cons
  simp only [List.length_append, List.length_cons, List.length_nil] at before jump inner back ending
  rw [length]
  -- From the label through the test.
  have enter {m : Cpu} (c : Cpu) (run : L.Inside (i + (0 + 1)) (i + (0 + 1) + test.length) (i + (0 + 1), c)
      (i + (0 + 1) + test.length, m)) :
      L.Inside i (i + (test.length + body.length + 4)) (i, c) (i + (0 + 1 + test.length), m) := by
    refine Inside.trans (.single (Nat.le_refl i) (show i < _ by omega) (.straight label (effect_label ..))) ?_
    rw [show i + (0 + 1 + test.length) = i + (0 + 1) + test.length by omega]
    exact run.mono (by omega) (by omega)
  induction n generalizing c with
  | zero =>
    obtain ⟨m, run, tested, leaves⟩ := tests 0 c start _ before
    refine ⟨m, (enter c run).trans ?_, tested⟩
    refine (Inside.taken jump named leaves ending (by omega) (by omega)).trans ?_
    rw [show i + (test.length + body.length + 4) = i + (0 + 1 + test.length + (0 + 1) + body.length) + 1 + 1 by omega]
    exact .single (show i ≤ _ by omega) (show _ < _ by omega) (.straight ending (effect_label ..))
  | succ n ih =>
    obtain ⟨m, run, tested, stays⟩ := tests (n + 1) c start _ before
    obtain ⟨k', once, next⟩ := round n m tested _ inner
    obtain ⟨d, rest, final⟩ := ih next
    refine ⟨d, (enter c run).trans ?_, final⟩
    refine (Inside.fall jump named stays (by omega) (by omega)).trans ?_
    rw [show i + (0 + 1 + test.length) + 1 = i + (0 + 1 + test.length + (0 + 1)) by omega]
    refine (once.mono (by omega) (by omega)).trans ?_
    rw [show i + (0 + 1 + test.length + (0 + 1)) + body.length = i + (0 + 1 + test.length + (0 + 1) + body.length) by omega]
    exact (Inside.jmp back label (by omega) (by omega)).trans rest

/-- `I n` holds where at most `n` more rounds follow, and `T n` between the two tests. -/
theorem searched {cond cond' top stop stop' done : String} {k k' : Cond} (named : jumpCondition cond = some k)
    (named' : jumpCondition cond' = some k') {test test' body stopped stopped' : List Call} {I T U : Nat → Cpu → Prop}
    {P P' : Cpu → Prop}
    (tests : ∀ n c, I n c → L.Meets test c fun d => if k.holds d.flags then P d else T n d)
    (tests' : ∀ n c, T n c → L.Meets test' c fun d => if k'.holds d.flags then P' d else 0 < n ∧ U n d)
    (round : ∀ n c, U (n + 1) c → L.Meets body c (I n)) (ends : ∀ c, P c → L.Meets stopped c Q)
    (ends' : ∀ c, P' c → L.Meets stopped' c Q) {n : Nat} (start : I n c) :
    L.Meets (searched cond cond' top stop stop' done test test' body stopped stopped') c Q := by
  intro i here
  have length : (Encoder.searched cond cond' top stop stop' done test test' body stopped stopped').length =
      test.length + test'.length + body.length + stopped'.length + stopped.length + 8 := by
    simp [Encoder.searched]
    omega
  obtain ⟨front, close⟩ := here.append _
  obtain ⟨front, yes⟩ := front.append _
  obtain ⟨front, leave⟩ := front.append _
  obtain ⟨front, yes'⟩ := front.append _
  obtain ⟨front, back⟩ := front.append _
  obtain ⟨front, inner⟩ := front.append _
  obtain ⟨front, jump'⟩ := front.append _
  obtain ⟨front, middle⟩ := front.append _
  obtain ⟨front, jump⟩ := front.append _
  obtain ⟨label, before⟩ := front.append _
  obtain ⟨back, target'⟩ := back.cons
  obtain ⟨leave, target⟩ := leave.cons
  simp only [List.length_append, List.length_cons, List.length_nil] at before jump middle jump' inner back target' yes' leave target yes close
  rw [length]
  -- The places of the pieces, in order.
  obtain ⟨p₁, e₁⟩ : ∃ p, i + 1 + test.length = p := ⟨_, rfl⟩
  obtain ⟨p₂, e₂⟩ : ∃ p, p₁ + 1 + test'.length = p := ⟨_, rfl⟩
  obtain ⟨p₃, e₃⟩ : ∃ p, p₂ + 1 + body.length = p := ⟨_, rfl⟩
  obtain ⟨p₄, e₄⟩ : ∃ p, p₃ + 2 + stopped'.length = p := ⟨_, rfl⟩
  obtain ⟨p₅, e₅⟩ : ∃ p, p₄ + 2 + stopped.length = p := ⟨_, rfl⟩
  rw [show i + (test.length + test'.length + body.length + stopped'.length + stopped.length + 8) = p₅ + 1 by omega]
  have close : L.At p₅ [.label done] := close.at (by omega)
  have enter {p : Nat} {name : String} (here : L.At p [.label name]) (lower : i ≤ p) (upper : p < p₅ + 1) (d : Cpu) :
      L.Inside i (p₅ + 1) (p, d) (p + 1, d) := .single lower upper (.straight here (effect_label ..))
  -- The two ends, each from the jump to it on.
  have first (d : Cpu) (p : P d) : ∃ e, L.Inside i (p₅ + 1) (p₄ + 1, d) (p₅ + 1, e) ∧ Q e := by
    obtain ⟨e, run, q⟩ := ends d p (p₄ + 2) (yes.at (by omega))
    have run := run.mono (show i ≤ p₄ + 2 by omega) (show p₄ + 2 + stopped.length ≤ p₅ + 1 by omega)
    rw [e₅] at run
    refine ⟨e, ?_, q⟩
    exact (enter (target.at (by omega)) (by omega) (by omega) d).trans (run.trans (enter close (by omega) (by omega) e))
  have second (d : Cpu) (p : P' d) : ∃ e, L.Inside i (p₅ + 1) (p₃ + 1, d) (p₅ + 1, e) ∧ Q e := by
    obtain ⟨e, run, q⟩ := ends' d p (p₃ + 2) (yes'.at (by omega))
    have run := run.mono (show i ≤ p₃ + 2 by omega) (show p₃ + 2 + stopped'.length ≤ p₅ + 1 by omega)
    rw [e₄] at run
    refine ⟨e, ?_, q⟩
    refine (enter (target'.at (by omega)) (by omega) (by omega) d).trans (run.trans ?_)
    exact (Inside.jmp (leave.at (by omega)) close (by omega) (by omega)).trans (enter close (by omega) (by omega) e)
  have tested (c d : Cpu) (run : L.Inside (i + 1) (i + 1 + test.length) (i + 1, c) (i + 1 + test.length, d)) :
      L.Inside i (p₅ + 1) (i, c) (p₁, d) := by
    have run := run.mono (show i ≤ i + 1 by omega) (show i + 1 + test.length ≤ p₅ + 1 by omega)
    rw [e₁] at run
    exact (enter label (Nat.le_refl i) (by omega) c).trans run
  have jump : L.At p₁ [.jcc cond stop] := jump.at (by omega)
  have jump' : L.At p₂ [.jcc cond' stop'] := jump'.at (by omega)
  -- One round leaves the code or comes back to its start.
  have once (n : Nat) (c : Cpu) (start : I n c) : (∃ e, L.Inside i (p₅ + 1) (i, c) (p₅ + 1, e) ∧ Q e) ∨
      ∃ m d, n = m + 1 ∧ L.Inside i (p₅ + 1) (i, c) (i, d) ∧ I m d := by
    obtain ⟨d, run, out⟩ := tests n c start _ before
    have run := tested c d run
    cases decided : k.holds d.flags with
    | true =>
      rw [decided, if_pos rfl] at out
      obtain ⟨e, rest, q⟩ := first d out
      exact .inl ⟨e, run.trans ((Inside.taken jump named decided (target.at (by omega)) (by omega) (by omega)).trans rest), q⟩
    | false =>
      rw [decided, if_neg (by decide)] at out
      obtain ⟨e, run', out'⟩ := tests' n d out (p₁ + 1) (middle.at (by omega))
      have run' := run'.mono (show i ≤ p₁ + 1 by omega) (show p₁ + 1 + test'.length ≤ p₅ + 1 by omega)
      rw [e₂] at run'
      have run := run.trans ((Inside.fall jump named decided (by omega) (by omega)).trans run')
      cases decided' : k'.holds e.flags with
      | true =>
        rw [decided', if_pos rfl] at out'
        obtain ⟨f, rest, q⟩ := second e out'
        refine .inl ⟨f, run.trans ((Inside.taken jump' named' decided' (target'.at (by omega)) ?_ ?_).trans rest), q⟩
        · omega
        · omega
      | false =>
        rw [decided', if_neg (by decide)] at out'
        obtain ⟨positive, further⟩ := out'
        obtain ⟨m, rfl⟩ := Nat.exists_eq_succ_of_ne_zero positive.ne'
        obtain ⟨f, run'', next⟩ := round m e further (p₂ + 1) (inner.at (by omega))
        have run'' := run''.mono (show i ≤ p₂ + 1 by omega) (show p₂ + 1 + body.length ≤ p₅ + 1 by omega)
        rw [e₃] at run''
        have again := Inside.jmp (c := f) (back.at (show _ = p₃ by omega)) label (show i ≤ p₃ by omega)
          (show p₃ < p₅ + 1 by omega)
        exact .inr ⟨m, f, rfl, run.trans ((Inside.fall jump' named' decided' (by omega) (by omega)).trans (run''.trans again)),
          next⟩
  induction n generalizing c with
  | zero =>
    obtain left | ⟨m, d, impossible, -⟩ := once 0 c start
    · exact left
    · omega
  | succ n ih =>
    obtain left | ⟨m, d, same, run, next⟩ := once (n + 1) c start
    · exact left
    · obtain rfl : n = m := by omega
      obtain ⟨e, rest, q⟩ := ih next
      exact ⟨e, run.trans rest, q⟩

/-- Code that leaves the stack pointer and the words saved, between saving registers and restoring them. -/
theorem saving {rs : List Reg} {body : List Call} (distinct : rs.Nodup) (notSp : .rsp ∉ rs)
    (fits : 8 * rs.length ≤ 2 ^ 64)
    (inner : ∀ m, Saved rs c m → L.Meets body m fun k => k.reg .rsp = m.reg .rsp ∧
      SameOn (m.reg .rsp) (8 * rs.length) m.mem k.mem ∧ ∀ d, Back rs c k d → Q d) :
    L.Meets (saving rs body) c Q := by
  obtain ⟨m, ran, saved⟩ := @save_effects L.env L.address rs notSp fits c
  have first : L.Meets (rs.map .pushReg ++ body) c fun k => k.reg .rsp = m.reg .rsp ∧
      SameOn (m.reg .rsp) (8 * rs.length) m.mem k.mem ∧ ∀ d, Back rs c k d → Q d :=
    append (straight ran rfl) fun _ same => same ▸ inner m saved
  refine first.append fun k inside => ?_
  obtain ⟨sp, kept, back⟩ := inside
  obtain ⟨d, ran, restored⟩ := @Saved.restore L.env L.address _ _ _ k saved distinct notSp fits sp kept
  exact .straight ran (back d restored)

end Meets

end Listing

end Aclm.Encoder
