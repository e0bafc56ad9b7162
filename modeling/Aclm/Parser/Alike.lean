import Aclm.Parser.Program

/-! Statements read from tokens that differ in their positions and in what follows the statement: a method that succeeds at
the ones, reads the same from the others. -/

set_option autoImplicit false

namespace Aclm.Parse

/-! ### Tokens -/

/-- Empty lines, and the end of the file. -/
inductive Ends : List Tok → Prop
  | eof {t : Tok} (kind : t.kind = .eof) : Ends [t]
  | newline {t : Tok} {rest : List Tok} (kind : t.kind = .newline) (ends : Ends rest) : Ends (t :: rest)

/-- The same tokens, up to the end of the file on the left and the end of a statement, in front of `tail`, on the right. -/
inductive Alike (tail : List Tok) : List Tok → List Tok → Prop
  | last {toks toks' : List Tok} (ends : Ends toks) (ends' : EndsStatement toks') (there : toks' = tail) : Alike tail toks toks'
  | cons {t t' : Tok} {toks toks' : List Tok} (kind : t.kind = t'.kind) (value : t.value = t'.value)
    (inside : t.kind ≠ .eof) (alike : Alike tail toks toks') : Alike tail (t :: toks) (t' :: toks')

theorem Ends.endsStatement {toks : List Tok} (ends : Ends toks) : EndsStatement toks := by
  cases ends with
  | eof kind => exact ⟨_, _, rfl, .inr kind⟩
  | newline kind _ => exact ⟨_, _, rfl, .inl kind⟩

theorem Alike.tail_le {tail toks toks' : List Tok} (alike : Alike tail toks toks') : tail.length ≤ toks'.length := by
  induction alike with
  | last ends ends' there => rw [there]
  | cons kind value inside alike ih => exact Nat.le_succ_of_le ih

/-- Behind the empty lines, the left is at its end and the right where its tail is, or both are at the same token. -/
theorem Alike.skip {tail toks toks' : List Tok} (alike : Alike tail toks toks') :
    (∃ t, t.kind = .eof ∧ toks.dropWhile (fun t => t.kind = .newline) = [t] ∧
        toks'.dropWhile (fun t => t.kind = .newline) = tail.dropWhile fun t => t.kind = .newline) ∨
      ∃ t t' more more', t.kind ≠ .newline ∧ t.kind ≠ .eof ∧ t.kind = t'.kind ∧ t.value = t'.value ∧ Alike tail more more' ∧
        toks.dropWhile (fun t => t.kind = .newline) = t :: more ∧
        toks'.dropWhile (fun t => t.kind = .newline) = t' :: more' := by
  induction alike with
  | last ends ends' there =>
    left
    induction ends with
    | @eof t kind => exact ⟨t, kind, List.dropWhile_cons_of_neg (by simp [kind]), by rw [there]⟩
    | newline kind _ ih => rwa [List.dropWhile_cons_of_pos (by simp [kind])]
  | @cons t t' toks toks' kind value inside alike ih =>
    by_cases newline : t.kind = .newline
    · rwa [List.dropWhile_cons_of_pos (by simp [newline]), List.dropWhile_cons_of_pos (by simp [← kind, newline])]
    · rw [List.dropWhile_cons_of_neg (by simp [newline]), List.dropWhile_cons_of_neg (by simp [← kind, newline])]
      exact .inr ⟨t, t', toks, toks', newline, inside, kind, value, alike, rfl, rfl⟩

/-- The rest of a line is left out on both sides. -/
theorem Alike.dropLine {tail toks toks' : List Tok} (alike : Alike tail toks toks') :
    Alike tail (toks.dropWhile fun t => t.kind ≠ .newline ∧ t.kind ≠ .eof)
      (toks'.dropWhile fun t => t.kind ≠ .newline ∧ t.kind ≠ .eof) := by
  induction alike with
  | last ends ends' there =>
    have stays {rest : List Tok} (stop : EndsStatement rest) : rest.dropWhile (fun t => t.kind ≠ .newline ∧ t.kind ≠ .eof) = rest := by
      obtain ⟨t, more, rfl, kind⟩ := stop
      exact List.dropWhile_cons_of_neg (by simpa [Classical.or_iff_not_imp_left] using kind)
    rw [stays ends.endsStatement, stays ends']
    exact .last ends ends' there
  | @cons t t' toks toks' kind value inside alike ih =>
    by_cases newline : t.kind = .newline
    · rw [List.dropWhile_cons_of_neg (by simp [newline]), List.dropWhile_cons_of_neg (by simp [← kind, newline])]
      exact .cons kind value inside alike
    · rwa [List.dropWhile_cons_of_pos (by simp [newline, inside]), List.dropWhile_cons_of_pos (by simp [← kind, newline, inside])]

/-! ### Methods -/

section Methods

variable {parser : Parser} {tail : List Tok} {α α' β β' : Type}

variable (parser tail) in
/-- Where `p` succeeds, so does `q`, with a value that is related, before tokens that are as alike; it has read `j` tokens
at least. -/
def Tracks (j : Nat) (S : α → α' → Prop) (p : Parse α) (q : Parse α') (toks toks' : List Tok) : Prop :=
  ∀ a rest, p parser toks = .ok (a, rest) →
    ∃ a' rest', q parser toks' = .ok (a', rest') ∧ S a a' ∧ Alike tail rest rest' ∧ rest'.length + j ≤ toks'.length

variable (parser) in
/-- `q` follows `p` on all tokens that are alike, fewer than `b` of them on the right. -/
structure Sim (b j : Nat) (S : α → α' → Prop) (p : Parse α) (q : Parse α') : Prop where
  follows : ∀ {tail toks toks' : List Tok}, Alike tail toks toks' → toks'.length < b → Tracks parser tail j S p q toks toks'

variable (parser) in
/-- A method that reads the same from tokens that are alike. -/
def Stable (p : Parse α) : Prop := ∀ b, Sim parser b 0 Eq p p

variable (parser) in
/-- A method that reads the same, and at least one token. -/
def Consumes (p : Parse α) : Prop := ∀ b, Sim parser b 1 Eq p p

variable {b j i : Nat} {S : α → α' → Prop} {R : β → β' → Prop} {p : Parse α} {q : Parse α'} {f : α → Parse β}
  {g : α' → Parse β'}

theorem Tracks.bind {toks toks' : List Tok} (first : Tracks parser tail j S p q toks toks')
    (rest : ∀ a a' more more', S a a' → Alike tail more more' → more'.length + j ≤ toks'.length →
      Tracks parser tail i R (f a) (g a') more more') :
    Tracks parser tail (j + i) R (p >>= f) (q >>= g) toks toks' := by
  intro c rest' ran
  obtain ⟨a, more, ran, later⟩ := bind_ok.mp ran
  obtain ⟨a', more', ran', same, alike, fewer⟩ := first a more ran
  obtain ⟨c', last, later', same', alike', fewer'⟩ := rest a a' more more' same alike fewer c rest' later
  exact ⟨c', last, bind_ok.mpr ⟨a', more', ran', later'⟩, same', alike', by omega⟩

theorem Tracks.mono {toks toks' : List Tok} (le : i ≤ j) (follows : Tracks parser tail j S p q toks toks') :
    Tracks parser tail i S p q toks toks' := by
  intro a rest ran
  obtain ⟨a', rest', ran', same, alike, fewer⟩ := follows a rest ran
  exact ⟨a', rest', ran', same, alike, by omega⟩

/-- A method that fails on the left need not be followed. -/
theorem Tracks.of_fails {toks toks' : List Tok} (fails : ∀ out, p parser toks ≠ .ok out) : Tracks parser tail j S p q toks toks' :=
  fun a rest ran => absurd ran (fails (a, rest))

namespace Sim

theorem bind (first : Sim parser b j S p q) (rest : ∀ a a', S a a' → Sim parser (b - j) i R (f a) (g a')) :
    Sim parser b (j + i) R (p >>= f) (q >>= g) where
  follows := fun alike short => (first.follows alike short).bind fun a a' _ _ same alike' fewer =>
    (rest a a' same).follows alike' (by omega)

theorem mono (le : i ≤ j) (sim : Sim parser b j S p q) : Sim parser b i S p q where
  follows := fun alike short => (sim.follows alike short).mono le

theorem shorter {c : Nat} (le : c ≤ b) (sim : Sim parser b j S p q) : Sim parser c j S p q where
  follows := fun alike short => sim.follows alike (Nat.lt_of_lt_of_le short le)

theorem pure {a : α} {a' : α'} (same : S a a') : Sim parser b 0 S (pure a) (pure a') where
  follows := fun alike _ _ _ ran => by
    cases ran
    exact ⟨a', _, rfl, same, alike, Nat.le_refl _⟩

theorem fail (e : PyErr) : Sim parser b j S (fail e) q where
  follows := fun _ _ => .of_fails fun _ ran => nomatch ran

theorem exhausted : Sim parser b j S exhausted q := fail _

/-- Without tokens there is no turn of a loop left. -/
theorem none : Sim parser 0 j S p q where
  follows := fun _ short => absurd short (Nat.not_lt_zero _)

end Sim

/-! ### Steps -/

namespace Tracks

variable {t t' : Tok} {toks toks' : List Tok}

theorem peek {f : Tok → Parse β} {g : Tok → Parse β'} (rest : Tracks parser tail j R (f t) (g t') (t :: toks) (t' :: toks')) :
    Tracks parser tail j R (Parse.peek >>= f) (Parse.peek >>= g) (t :: toks) (t' :: toks') := rest

theorem kind {f : T → Parse β} {g : T → Parse β'} (rest : Tracks parser tail j R (f t.kind) (g t'.kind) (t :: toks) (t' :: toks')) :
    Tracks parser tail j R (Parse.kind >>= f) (Parse.kind >>= g) (t :: toks) (t' :: toks') := rest

theorem adv {f : Tok → Parse β} {g : Tok → Parse β'} (same : t.kind = t'.kind) (inside : t.kind ≠ .eof)
    (rest : Tracks parser tail j R (f t) (g t') toks toks') :
    Tracks parser tail (j + 1) R (Parse.adv >>= f) (Parse.adv >>= g) (t :: toks) (t' :: toks') := by
  intro b more ran
  rw [bind_run (adv_cons inside)] at ran
  obtain ⟨b', more', ran', related, alike, fewer⟩ := rest b more ran
  exact ⟨b', more', by rw [bind_run (adv_cons (same ▸ inside)), ran'], related, alike, by simpa [← Nat.add_assoc] using fewer⟩

end Tracks

/-- The kinds that no end of a statement has. -/
def Within (k : T) : Prop := k ≠ .newline ∧ k ≠ .eof

instance (k : T) : Decidable (Within k) := inferInstanceAs (Decidable (_ ∧ _))

theorem Ends.head {toks : List Tok} (ends : Ends toks) : ∃ t rest, toks = t :: rest ∧ ¬ Within t.kind := by
  cases ends with
  | eof kind => exact ⟨_, _, rfl, by simp [Within, kind]⟩
  | newline kind _ => exact ⟨_, _, rfl, by simp [Within, kind]⟩

theorem EndsStatement.head {toks : List Tok} (ends : EndsStatement toks) : ∃ t rest, toks = t :: rest ∧ ¬ Within t.kind := by
  obtain ⟨t, rest, rfl, kind⟩ := ends
  exact ⟨t, rest, rfl, fun within => kind.elim within.1 within.2⟩

namespace Sim

variable {k : T}

/-- A choice by the kind of the next token. -/
theorem ifKind (within : Within k) {yes no : Parse α} {yes' no' : Parse α'}
    (taken : ∀ {tail t t' toks toks'}, t.kind = k → t'.kind = k → t.value = t'.value → Alike tail toks toks' →
      toks'.length + 1 < b → Tracks parser tail j S yes yes' (t :: toks) (t' :: toks'))
    (other : Sim parser b j S no no') :
    Sim parser b j S (do if (← kind) = k then yes else no) (do if (← kind) = k then yes' else no') where
  follows := by
    intro tail toks toks' alike short
    have go := other.follows alike short
    cases alike with
    | last ends ends' =>
      obtain ⟨t, rest, rfl, out⟩ := ends.head
      obtain ⟨t', rest', rfl, out'⟩ := ends'.head
      refine .kind ?_
      have off : t.kind ≠ k := fun same => out (same ▸ within)
      have off' : t'.kind ≠ k := fun same => out' (same ▸ within)
      rwa [if_neg off, if_neg off']
    | @cons t t' toks toks' kind value inside alike =>
      refine .kind ?_
      by_cases same : t.kind = k
      · rw [if_pos same, if_pos (kind ▸ same)]
        exact taken same (kind ▸ same) value alike short
      · rwa [if_neg same, if_neg (kind ▸ same)]

/-- A choice of a kind whose token is read at once. -/
theorem ifTaken (within : Within k) {f : Tok → Parse α} {f' : Tok → Parse α'} {no : Parse α} {no' : Parse α'}
    (taken : ∀ t t', t.value = t'.value → Sim parser b 0 S (f t) (f' t')) (other : Sim parser b 0 S no no') :
    Sim parser b 0 S (do if (← kind) = k then do f (← adv) else no) (do if (← kind) = k then do f' (← adv) else no') :=
  .ifKind within (fun {_ t t'} _ _ same same' value alike short => (Tracks.adv (same.trans same'.symm) (same ▸ within.2)
    ((taken t t' value).follows alike (Nat.lt_of_succ_lt short))).mono (Nat.zero_le 1)) other

/-- A choice by the next word; what follows the choice of the word is read from there on. -/
theorem ifWord (kw : String) {yes no : Parse α} {yes' no' : Parse α'}
    (taken : ∀ {tail t t' toks toks'}, t.kind = .ident → t'.kind = .ident → t.value = t'.value → Alike tail toks toks' →
      toks'.length + 1 < b → Tracks parser tail j S yes yes' (t :: toks) (t' :: toks'))
    (other : Sim parser b j S no no') :
    Sim parser b j S (do if ← atWord kw then yes else no) (do if ← atWord kw then yes' else no') where
  follows := by
    intro tail toks toks' alike short
    have go := other.follows alike short
    intro a rest ran
    cases alike with
    | last ends ends' =>
      obtain ⟨t, left, rfl, out⟩ := ends.head
      obtain ⟨t', left', rfl, out'⟩ := ends'.head
      have off : ¬ (t.kind = .ident ∧ lower t.value = kw) := fun word => out (word.1 ▸ by decide)
      have off' : ¬ (t'.kind = .ident ∧ lower t'.value = kw) := fun word => out' (word.1 ▸ by decide)
      rw [bind_run (atWord_cons kw), decide_eq_false off] at ran
      rw [bind_run (atWord_cons kw), decide_eq_false off']
      exact go a rest ran
    | @cons t t' toks toks' kind value inside alike =>
      rw [bind_run (atWord_cons kw)] at ran ⊢
      rw [← kind, ← value]
      by_cases word : t.kind = .ident ∧ lower t.value = kw
      · rw [decide_eq_true word] at ran ⊢
        exact taken word.1 (kind ▸ word.1) value alike short a rest ran
      · rw [decide_eq_false word] at ran ⊢
        exact go a rest ran

theorem ifEnd {yes no : Parse α} {yes' no' : Parse α'} (ended : Sim parser b j S yes yes') (other : Sim parser b j S no no') :
    Sim parser b j S (do if ← atEnd then yes else no) (do if ← atEnd then yes' else no') where
  follows := by
    intro tail toks toks' alike short
    have go := other.follows alike short
    have stop := ended.follows alike short
    intro a rest ran
    cases alike with
    | last ends ends' =>
      rw [bind_run (atEnd_run ends.endsStatement)] at ran
      rw [bind_run (atEnd_run ends')]
      exact stop a rest ran
    | @cons t t' toks toks' kind value inside alike =>
      by_cases newline : t.kind = .newline
      · rw [bind_run (atEnd_run ⟨t, toks, rfl, .inl newline⟩)] at ran
        rw [bind_run (atEnd_run ⟨t', toks', rfl, .inl (kind ▸ newline)⟩)]
        exact stop a rest ran
      · rw [bind_run (atEnd_cons ⟨newline, inside⟩)] at ran
        rw [bind_run (atEnd_cons ⟨kind ▸ newline, kind ▸ inside⟩)]
        exact go a rest ran

theorem expectFor (within : Within k) (msg : String) :
    Sim parser b 1 (fun t t' => t.value = t'.value) (expectFor k msg) (Parse.expectFor k msg) where
  follows := by
    intro tail toks toks' alike _ t rest ran
    obtain ⟨kind, rfl⟩ := expectFor_ok within.2 ran
    cases alike with
    | last ends _ =>
      obtain ⟨u, left, same, out⟩ := ends.head
      cases same
      exact absurd (kind ▸ within) out
    | @cons _ t' _ toks' same value inside alike =>
      refine ⟨t', toks', ?_, value, alike, Nat.le_refl _⟩
      rw [Parse.expectFor, bind_run peek_cons, if_pos (same ▸ kind), adv_cons (same ▸ inside)]

theorem ifAccept (within : Within k) {yes no : Parse α} {yes' no' : Parse α'} (taken : Sim parser (b - 1) (j - 1) S yes yes')
    (other : Sim parser b j S no no') :
    Sim parser b j S (do if ← accept k then yes else no) (do if ← accept k then yes' else no') where
  follows := by
    intro tail toks toks' alike short
    have go := other.follows alike short
    intro a rest ran
    cases alike with
    | last ends ends' =>
      obtain ⟨t, left, rfl, out⟩ := ends.head
      obtain ⟨t', left', rfl, out'⟩ := ends'.head
      rw [bind_run (accept_other fun same => out (same ▸ within))] at ran
      rw [bind_run (accept_other fun same => out' (same ▸ within))]
      exact go a rest ran
    | @cons t t' toks toks' kind value inside alike =>
      by_cases same : t.kind = k
      · rw [bind_run (accept_cons same within.2)] at ran
        rw [bind_run (accept_cons (kind ▸ same) within.2)]
        rw [List.length_cons] at short ⊢
        obtain ⟨a', rest', ran', related, alike', fewer⟩ := taken.follows alike (by omega) a rest ran
        exact ⟨a', rest', ran', related, alike', by omega⟩
      · rw [bind_run (accept_other same)] at ran
        rw [bind_run (accept_other (kind ▸ same))]
        exact go a rest ran

/-- Empty lines, where what follows them has to read something. -/
theorem skipNl {p : Parse α} {q : Parse α'} (needs : ∀ t, t.kind = .eof → ∀ out, p parser [t] ≠ .ok out)
    (rest : Sim parser b j S p q) : Sim parser b j S (do skipNl; p) (do Parse.skipNl; q) where
  follows := by
    intro tail toks toks' alike short a left ran
    have fewer := (List.dropWhile_sublist (l := toks') fun t => t.kind = .newline).length_le
    rcases alike.skip with ⟨t, kind, last, -⟩ | ⟨t, t', more, more', -, inside, kind, value, alike, left', right'⟩
    · have ended : p parser [t] = .ok (a, left) := last ▸ ran
      exact absurd ended (needs t kind _)
    · rw [right'] at fewer
      obtain ⟨a', rest', ran', related, alike', fewer'⟩ := rest.follows (.cons kind value inside alike) (by omega) a left
        (left' ▸ ran)
      exact ⟨a', rest', (congrArg (q parser) right').trans ran', related, alike', by omega⟩

end Sim

/-! ### Methods that read the same -/

theorem Consumes.stable {p : Parse α} (reads : Consumes parser p) : Stable parser p := fun b => (reads b).mono (Nat.zero_le 1)

theorem Consumes.bind {p : Parse α} {f : α → Parse β} (first : Consumes parser p) (rest : ∀ a, Stable parser (f a)) :
    Consumes parser (p >>= f) := by
  intro b
  refine (first b).bind (i := 0) (R := Eq) fun a a' same => ?_
  subst same
  exact rest a _

namespace Stable

theorem bind {p : Parse α} {f : α → Parse β} (first : Stable parser p) (rest : ∀ a, Stable parser (f a)) :
    Stable parser (p >>= f) := by
  intro b
  refine (first b).bind (i := 0) (R := Eq) fun a a' same => ?_
  subst same
  exact rest a _

/-- A step without a result, and the steps after it. -/
theorem seq {p : Parse Unit} {q : Parse β} (first : Stable parser p) (rest : Stable parser q) :
    Stable parser (do p; q) :=
  first.bind fun _ => rest

theorem pure (a : α) : Stable parser (pure a) := fun _ => .pure rfl

theorem fail (e : PyErr) : Stable parser (fail e : Parse α) := fun _ => .fail e

theorem exhausted : Stable parser (exhausted : Parse α) := fail _

theorem ite {c : Prop} [Decidable c] {p q : Parse α} (yes : Stable parser p) (no : Stable parser q) :
    Stable parser (if c then p else q) := by
  split <;> assumption

theorem int (base : Nat) (s : String) : Stable parser (int base s) := fun b =>
  { follows := fun {_ toks toks'} alike _ value rest ran => by
      obtain ⟨is, rfl⟩ := int_ok ran
      exact ⟨value, toks', int_run is, rfl, alike, Nat.le_refl _⟩ }

theorem ifEnd {yes no : Parse α} (ended : Stable parser yes) (other : Stable parser no) :
    Stable parser (do if ← atEnd then yes else no) :=
  fun b => .ifEnd (ended b) (other b)

theorem ifAccept {k : T} (within : Within k) {yes no : Parse α} (taken : Stable parser yes) (other : Stable parser no) :
    Stable parser (do if ← accept k then yes else no) :=
  fun b => .ifAccept within (taken _) (other b)

theorem ifKind {k : T} (within : Within k) {yes no : Parse α} (taken : Stable parser yes) (other : Stable parser no) :
    Stable parser (do if (← kind) = k then yes else no) :=
  fun b => .ifKind within
    (fun same same' value alike short => (taken b).follows (.cons (same.trans same'.symm) value (same ▸ within.2) alike) short)
    (other b)

/-- A choice of a kind whose token is read at once. -/
theorem ifTaken {k : T} (within : Within k) {f : Tok → Parse α} {no : Parse α}
    (taken : ∀ t t', t.value = t'.value → ∀ b, Sim parser b 0 Eq (f t) (f t')) (other : Stable parser no) :
    Stable parser (do if (← kind) = k then do f (← adv) else no) :=
  fun b => .ifTaken within (fun t t' same => taken t t' same b) (other b)

/-- The rest of a loop behind something that is read the same. -/
theorem before {b : Nat} {S : β → β' → Prop} {p : Parse α} {f : α → Parse β} {f' : α → Parse β'} (first : Stable parser p)
    (rest : ∀ a, Sim parser b 0 S (f a) (f' a)) : Sim parser b 0 S (p >>= f) (p >>= f') := by
  refine (first b).bind (i := 0) (R := S) fun a a' same => ?_
  subst same
  exact rest a

theorem ifWord (kw : String) {yes no : Parse α} (taken : Stable parser yes) (other : Stable parser no) :
    Stable parser (do if ← atWord kw then do let _ ← adv; yes else no) :=
  fun b => .ifWord kw
    (fun same same' value alike short => (Tracks.adv (same.trans same'.symm) (by simp [same])
      ((taken b).follows alike (Nat.lt_of_succ_lt short))).mono (Nat.zero_le _))
    (other b)

/-- A loop with as many turns as there are tokens. -/
theorem loop {f : Nat → Parse α} (turns : ∀ n n', Sim parser n' 0 Eq (f n) (f n')) :
    Stable parser (do f ((← remaining) + 1)) :=
  fun _ => { follows := fun {_ toks toks'} alike _ => fun a rest ran =>
    (turns (toks.length + 1) (toks'.length + 1)).follows alike (Nat.lt_succ_self _) a rest ran }

/-- A loop, and what follows it. -/
theorem looped {f : Nat → Parse α} {g : α → Parse β} (first : Stable parser (do f ((← remaining) + 1)))
    (rest : ∀ a, Stable parser (g a)) : Stable parser (do
      let turns ← remaining
      let a ← f (turns + 1)
      g a) := by
  have both := first.bind rest
  rwa [bind_assoc] at both

end Stable

end Methods

end Aclm.Parse
