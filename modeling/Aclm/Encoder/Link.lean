import Aclm.Encoder.Assembler

/-! Linking: where the fields lie, when the linker succeeds, and the text it produces. -/

set_option autoImplicit false

namespace Aclm.Encoder

open X64 (Byte leBytes leValue ofSigned toSigned)

/-- A relocation whose name is known and whose displacement fits in four bytes. -/
def Linkable (offs : Dict Int) (r : Reloc) : Prop :=
  ∃ target, offs.get? r.target = some target ∧
    -2 ^ 31 ≤ target - (r.offset + 4) ∧ target - (r.offset + 4) < 2 ^ 31

/-- The four bytes the linker puts into a field that ends at `next`. -/
def linkFill (offs : Dict Int) (target : String) (next : Nat) : List Byte :=
  leBytes 4 (ofSigned 32 ((offs.get? target).getD 0 - next))

theorem linkFill_four (offs : Dict Int) : FourBytes (linkFill offs) :=
  fun _ _ => X64.leBytes_length _ _

theorem s32_ok {v : Int} (lower : -2 ^ 31 ≤ v) (upper : v < 2 ^ 31) :
    s32 v = .ok (leBytes 4 (ofSigned 32 v)) := by
  rw [s32, if_neg]
  omega

theorem s32_range {v : Int} {bs : List Byte} (ok : s32 v = .ok bs) :
    -2 ^ 31 ≤ v ∧ v < 2 ^ 31 ∧ bs = leBytes 4 (ofSigned 32 v) := by
  unfold s32 at ok
  split at ok
  · cases ok
  · cases ok
    exact ⟨by omega, by omega, rfl⟩

namespace Assembler

variable {offs : Dict Int} {r : Reloc}

theorem displacement_ok (linkable : Linkable offs r) :
    displacement offs r = .ok (linkFill offs r.target (r.offset + 4)) := by
  obtain ⟨target, found, lower, upper⟩ := linkable
  simp only [displacement, found, linkFill, Option.getD_some, Nat.cast_add, Nat.cast_ofNat]
  exact s32_ok lower upper

theorem linkable_of_displacement {field : List Byte} (ok : displacement offs r = .ok field) :
    Linkable offs r := by
  unfold displacement at ok
  split at ok
  · cases ok
  · next target found =>
    obtain ⟨lower, upper, -⟩ := s32_range ok
    exact ⟨target, found, lower, upper⟩

/-- The only exception a field raises is a ValueError. -/
theorem displacement_error (stuck : ¬Linkable offs r) :
    ∃ msg, displacement offs r = .error (.valueError msg) := by
  cases result : displacement offs r with
  | ok field => exact absurd (linkable_of_displacement result) stuck
  | error e =>
    unfold displacement s32 at result
    split at result
    · cases result; exact ⟨_, rfl⟩
    · split at result
      · cases result; exact ⟨_, rfl⟩
      · cases result

theorem patchAll_cons {rs : List Reloc} {code : List Byte} (linkable : Linkable offs r) :
    patchAll offs (r :: rs) code =
      patchAll offs rs (patch code r.offset (linkFill offs r.target (r.offset + 4))) := by
  rw [patchAll, displacement_ok linkable]
  rfl

theorem patchAll_ok (rs : List Reloc) (all : ∀ r ∈ rs, Linkable offs r) (code : List Byte) :
    ∃ linked, patchAll offs rs code = .ok linked := by
  induction rs generalizing code with
  | nil => exact ⟨code, rfl⟩
  | cons r rs ih =>
    rw [patchAll_cons (all r List.mem_cons_self)]
    exact ih (fun s member => all s (List.mem_cons_of_mem _ member)) _

theorem patchAll_error (rs : List Reloc) (some : ∃ r ∈ rs, ¬Linkable offs r) (code : List Byte) :
    ∃ msg, patchAll offs rs code = .error (.valueError msg) := by
  induction rs generalizing code with
  | nil => obtain ⟨r, member, -⟩ := some; cases member
  | cons r rs ih =>
    by_cases linkable : Linkable offs r
    · rw [patchAll_cons linkable]
      obtain ⟨s, member, stuck⟩ := some
      rcases List.mem_cons.mp member with rfl | member
      · exact absurd linkable stuck
      · exact ih ⟨s, member, stuck⟩ _
    · obtain ⟨msg, failed⟩ := displacement_error linkable
      exact ⟨msg, by rw [patchAll, failed]; rfl⟩

theorem patch_middle (pre new post : List Byte) {old : List Byte} (four : old.length = 4) :
    patch (pre ++ old ++ post) pre.length new = pre ++ new ++ post := by
  have front : (pre ++ old ++ post).take pre.length = pre := by
    rw [List.append_assoc, List.take_left']
    rfl
  have back : (pre ++ old ++ post).drop (pre.length + 4) = post := by
    rw [← four, ← List.length_append, List.drop_left']
    rfl
  rw [patch, front, back]

theorem linkable_of_patchAll {rs : List Reloc} {code linked : List Byte}
    (ok : patchAll offs rs code = .ok linked) : ∀ r ∈ rs, Linkable offs r := by
  intro r member
  by_contra stuck
  obtain ⟨msg, failed⟩ := patchAll_error rs ⟨r, member, stuck⟩ code
  rw [ok] at failed
  cases failed

/-- Patching the fields of a sequence of calls turns the zero bytes into the linker's. -/
theorem patchAll_assembled {deterministic : Bool} (cs : List Call) (pre post : List Byte)
    (encoded : ∀ c ∈ cs, ∃ bs, c.encode deterministic = .ok bs)
    (all : ∀ r ∈ relocsFrom deterministic pre.length cs, Linkable offs r) :
    patchAll offs (relocsFrom deterministic pre.length cs)
        (pre ++ assembled deterministic zeros pre.length cs ++ post) =
      .ok (pre ++ assembled deterministic (linkFill offs) pre.length cs ++ post) := by
  induction cs generalizing pre with
  | nil => simp [assembled, relocsFrom, patchAll]
  | cons c cs ih =>
    obtain ⟨bs, hbs⟩ := encoded c List.mem_cons_self
    have rest := fun c member => encoded c (List.mem_cons_of_mem _ member)
    cases fixed : c.fixup with
    | none =>
      have step (fill) : c.assembled deterministic fill pre.length = bs := by
        simp [Call.assembled, hbs, fixed]
      have moved : pre.length + c.size deterministic = (pre ++ bs).length := by
        simp [Call.size, Call.assembled, hbs, fixed]
      simp only [relocsFrom, fixed, assembled, step, moved] at all ⊢
      simpa [List.append_assoc] using ih (pre ++ bs) rest all
    | some target =>
      have step (fill) : c.assembled deterministic fill pre.length =
          bs ++ fill target (pre.length + bs.length + 4) := by
        simp [Call.assembled, hbs, fixed]
      have sized : c.size deterministic = bs.length + 4 := by
        simp [Call.size, Call.assembled, hbs, fixed]
      have field : pre.length + (bs.length + 4) - 4 = (pre ++ bs).length := by simp; omega
      have ending : (pre ++ bs).length + 4 = pre.length + bs.length + 4 := by simp
      have moved : pre.length + (bs.length + 4) =
          (pre ++ bs ++ linkFill offs target (pre.length + bs.length + 4)).length := by
        simp [linkFill]
      simp only [relocsFrom, fixed, assembled, step, sized, field] at all ⊢
      rw [patchAll_cons (all _ List.mem_cons_self), ending]
      have patched := patch_middle (pre ++ bs) (linkFill offs target (pre.length + bs.length + 4))
        (assembled deterministic zeros (pre.length + (bs.length + 4)) cs ++ post) (zeros_four target (pre.length + bs.length + 4))
      simp only [List.append_assoc] at patched ⊢
      rw [patched]
      rw [moved] at all ⊢
      simpa [List.append_assoc] using ih (pre ++ bs ++ linkFill offs target (pre.length + bs.length + 4))
        rest fun r member => all r (List.mem_cons_of_mem _ member)

/-- The linked text of a run from an empty buffer. -/
theorem link_code {deterministic : Bool} {cs : List Call} {a linked : Assembler}
    (ok : (empty deterministic).run cs = .ok a) (link : a.link offs = .ok linked) :
    linked.code = assembled deterministic (linkFill offs) 0 cs ∧
      linked.labels = a.labels ∧ linked.relocs = a.relocs ∧ ∀ r ∈ a.relocs, Linkable offs r := by
  obtain ⟨code, relocs, -, encoded⟩ := run_code ok
  simp only [empty, List.length_nil, List.nil_append] at code relocs encoded
  simp only [Assembler.link] at link
  cases result : patchAll offs a.relocs a.code with
  | error e => rw [result] at link; cases link
  | ok text =>
    rw [result] at link
    cases link
    have all := linkable_of_patchAll result
    have whole := patchAll_assembled cs [] [] encoded (by simpa [← relocs] using all)
    simp only [List.length_nil, List.nil_append, List.append_nil, ← code, ← relocs, result] at whole
    exact ⟨Except.ok.inj whole, rfl, rfl, all⟩

/-! ### The fields -/

/-- The relocations of a run lie one after the other, each inside the bytes of its call. -/
theorem relocsFrom_fields {deterministic : Bool} (cs : List Call) (o : Nat)
    (encoded : ∀ c ∈ cs, ∃ bs, c.encode deterministic = .ok bs) :
    (relocsFrom deterministic o cs).Pairwise (fun r s => r.offset + 4 ≤ s.offset) ∧
      ∀ r ∈ relocsFrom deterministic o cs, o ≤ r.offset ∧ r.offset + 4 ≤ o + size deterministic cs := by
  induction cs generalizing o with
  | nil => simp [relocsFrom]
  | cons c cs ih =>
    obtain ⟨bs, hbs⟩ := encoded c List.mem_cons_self
    obtain ⟨apart, inside⟩ := ih (o + c.size deterministic)
      fun c member => encoded c (List.mem_cons_of_mem _ member)
    cases fixed : c.fixup with
    | none =>
      simp only [relocsFrom, fixed, size_cons]
      refine ⟨apart, fun r member => ?_⟩
      have := inside r member
      omega
    | some target =>
      have sized : c.size deterministic = bs.length + 4 := by
        simp [Call.size, Call.assembled, hbs, fixed]
      simp only [relocsFrom, fixed, size_cons, List.pairwise_cons]
      refine ⟨⟨fun r member => ?_, apart⟩, fun r member => ?_⟩
      · have := (inside r member).1
        omega
      · rcases List.mem_cons.mp member with rfl | member
        · constructor <;> dsimp only <;> omega
        · have := inside r member
          omega

theorem patch_getElem? {code field : List Byte} {o i : Nat} (four : field.length = 4)
    (bound : o + 4 ≤ code.length) :
    (patch code o field)[i]? = if o ≤ i ∧ i < o + 4 then field[i - o]? else code[i]? := by
  have front : (code.take o).length = o := by simp; omega
  unfold patch
  rw [List.append_assoc]
  by_cases before : i < o
  · rw [List.getElem?_append_left (by omega), List.getElem?_take_of_lt before, if_neg (by omega)]
  · rw [List.getElem?_append_right (by omega), front]
    by_cases inside : i < o + 4
    · rw [List.getElem?_append_left (by omega), if_pos ⟨by omega, inside⟩]
    · rw [List.getElem?_append_right (by omega), List.getElem?_drop, four, if_neg (by omega)]
      congr 1
      omega

theorem patchAll_fields (rs : List Reloc) {code linked : List Byte}
    (apart : rs.Pairwise fun r s => r.offset + 4 ≤ s.offset)
    (inside : ∀ r ∈ rs, r.offset + 4 ≤ code.length) (ok : patchAll offs rs code = .ok linked) :
    linked.length = code.length ∧
      (∀ i, (∀ r ∈ rs, ¬(r.offset ≤ i ∧ i < r.offset + 4)) → linked[i]? = code[i]?) ∧
      ∀ r ∈ rs, ∀ k < 4, linked[r.offset + k]? = (linkFill offs r.target (r.offset + 4))[k]? := by
  induction rs generalizing code with
  | nil => cases ok; exact ⟨rfl, fun _ _ => rfl, by simp⟩
  | cons r rs ih =>
    have linkable := linkable_of_patchAll ok r List.mem_cons_self
    rw [patchAll_cons linkable] at ok
    obtain ⟨after, apart⟩ := List.pairwise_cons.mp apart
    have bound := inside r List.mem_cons_self
    have four := linkFill_four offs r.target (r.offset + 4)
    have same : (patch code r.offset (linkFill offs r.target (r.offset + 4))).length = code.length := by
      simp [patch, four]; omega
    obtain ⟨length, outside, fields⟩ := ih apart
      (fun s member => by rw [same]; exact inside s (List.mem_cons_of_mem _ member)) ok
    refine ⟨length.trans same, fun i free => ?_, fun s member k small => ?_⟩
    · rw [outside i fun s member => free s (List.mem_cons_of_mem _ member),
        patch_getElem? four bound, if_neg (free r List.mem_cons_self)]
    · rcases List.mem_cons.mp member with rfl | member
      · rw [outside (s.offset + k) fun t later => by have := after t later; omega,
          patch_getElem? four bound, if_pos ⟨by omega, by omega⟩, Nat.add_sub_cancel_left]
      · exact fields s member k small

/-- A label is at the end of what the calls before it appended. -/
theorem labelsFrom_boundary {deterministic : Bool} (cs : List Call) (start : Nat) {name : String}
    {o : Nat} (found : (labelsFrom deterministic start cs).get? name = some o) :
    ∃ before after, cs = before ++ .label name :: after ∧ o = start + size deterministic before := by
  induction cs generalizing start with
  | nil => cases found
  | cons c cs ih =>
    by_cases isLabel : ∃ new, c = .label new
    · obtain ⟨new, rfl⟩ := isLabel
      simp only [labelsFrom, Dict.get?] at found
      split at found
      · next same =>
        cases found
        exact ⟨[], cs, by rw [same]; rfl, rfl⟩
      · obtain ⟨before, after, rfl, rfl⟩ := ih start found
        exact ⟨.label new :: before, after, rfl, by simp [Call.size, Call.assembled, Call.encode, Call.fixup]⟩
    · rw [labelsFrom_cons fun new same => isLabel ⟨new, same⟩] at found
      obtain ⟨before, after, rfl, rfl⟩ := ih _ found
      exact ⟨c :: before, after, rfl, by simp [Nat.add_assoc]⟩

/-- The offset of a call in the buffer of a run. -/
theorem run_length {deterministic : Bool} {cs : List Call} {a : Assembler}
    (ok : (empty deterministic).run cs = .ok a) : a.code.length = size deterministic cs := by
  rw [(run_code ok).1]
  simp [empty, assembled_length _ zeros_four]

/-- The fields of a run are disjoint and inside the buffer. -/
theorem run_fields {deterministic : Bool} {cs : List Call} {a : Assembler}
    (ok : (empty deterministic).run cs = .ok a) :
    a.relocs.Pairwise (fun r s => r.offset + 4 ≤ s.offset) ∧ ∀ r ∈ a.relocs, r.offset + 4 ≤ a.code.length := by
  obtain ⟨-, relocs, -, encoded⟩ := run_code ok
  simp only [empty, List.length_nil, List.nil_append] at relocs encoded
  obtain ⟨apart, inside⟩ := relocsFrom_fields cs 0 encoded
  simp only [← relocs, Nat.zero_add, ← run_length ok] at apart inside
  exact ⟨apart, fun r member => (inside r member).2⟩

/-- Linking a run changes the fields only, and each then holds the distance from its end to its target. -/
theorem link_fields {deterministic : Bool} {cs : List Call} {a linked : Assembler}
    (ok : (empty deterministic).run cs = .ok a) (link : a.link offs = .ok linked) :
    linked.code.length = a.code.length ∧
      (∀ i, (∀ r ∈ a.relocs, ¬(r.offset ≤ i ∧ i < r.offset + 4)) → linked.code[i]? = a.code[i]?) ∧
      ∀ r ∈ a.relocs, ∃ target, offs.get? r.target = some target ∧
        toSigned 32 (leValue ((linked.code.drop r.offset).take 4)) + (r.offset + 4) = target := by
  obtain ⟨apart, inside⟩ := run_fields ok
  cases result : patchAll offs a.relocs a.code with
  | error e => rw [Assembler.link, result] at link; cases link
  | ok text =>
    rw [Assembler.link, result] at link
    cases link
    obtain ⟨length, outside, fields⟩ := patchAll_fields a.relocs apart inside result
    refine ⟨length, outside, fun r member => ?_⟩
    obtain ⟨target, found, lower, upper⟩ := linkable_of_patchAll result r member
    have bound := inside r member
    have four := linkFill_four offs r.target (r.offset + 4)
    have field : (text.drop r.offset).take 4 = linkFill offs r.target (r.offset + 4) := by
      apply List.ext_getElem?
      intro k
      by_cases small : k < 4
      · rw [List.getElem?_take_of_lt small, List.getElem?_drop, fields r member k small]
      · rw [List.getElem?_eq_none (by simp; omega), List.getElem?_eq_none (by omega)]
    have value : ((r.offset + 4 : Nat) : Int) = r.offset + 4 := by push_cast; rfl
    have fits : ofSigned 32 (target - (r.offset + 4)) % 256 ^ 4 = ofSigned 32 (target - (r.offset + 4)) :=
      Nat.mod_eq_of_lt (X64.ofSigned_lt 32 _)
    refine ⟨target, found, ?_⟩
    simp only [field, linkFill, found, Option.getD_some, value, X64.leValue_leBytes, fits]
    rw [X64.toSigned_ofSigned 32 _ (by decide) (by simpa using lower) (by simpa using upper)]
    omega

theorem label_le {deterministic : Bool} {cs : List Call} {a : Assembler} (ok : (empty deterministic).run cs = .ok a)
    {name : String} {o : Nat} (found : a.labels.get? name = some o) : o ≤ a.code.length := by
  rw [run_labels ok] at found
  simp only [empty, Dict.get?, Option.none_or] at found
  obtain ⟨before, after, rfl, rfl⟩ := labelsFrom_boundary cs 0 found
  rw [run_length ok, size_append]
  simp

/-- What the bookkeeping of a sequence of calls guarantees: the fields are disjoint and inside the
buffer, every label stands between two calls, and linking fails with a ValueError exactly when a
field cannot be filled; otherwise only the fields change, and each holds the signed distance from its
end to its target. -/
structure LinkCorrect (deterministic : Bool) (cs : List Call) (a : Assembler) : Prop where
  apart : a.relocs.Pairwise fun r s => r.offset + 4 ≤ s.offset
  inside : ∀ r ∈ a.relocs, r.offset + 4 ≤ a.code.length
  boundary : ∀ name o, a.labels.get? name = some o → ∃ before after b,
    cs = before ++ .label name :: after ∧ (empty deterministic).run before = .ok b ∧ o = b.code.length
  failure : ∀ offs : Dict Int,
    (∃ msg, a.link offs = .error (.valueError msg)) ↔ ∃ r ∈ a.relocs, ¬Linkable offs r
  success : ∀ offs : Dict Int, (∀ r ∈ a.relocs, Linkable offs r) → ∃ linked, a.link offs = .ok linked ∧
    linked.code.length = a.code.length ∧
    (∀ i, (∀ r ∈ a.relocs, ¬(r.offset ≤ i ∧ i < r.offset + 4)) → linked.code[i]? = a.code[i]?) ∧
    ∀ r ∈ a.relocs, ∀ target, offs.get? r.target = some target →
      toSigned 32 (leValue ((linked.code.drop r.offset).take 4)) + (r.offset + 4) = target

theorem link_correct (deterministic : Bool) (cs : List Call) (a : Assembler)
    (ok : (empty deterministic).run cs = .ok a) : LinkCorrect deterministic cs a := by
  obtain ⟨apart, inside⟩ := run_fields ok
  refine ⟨apart, inside, fun name o found => ?_, fun offs => ⟨?_, ?_⟩, fun offs => ?_⟩
  · rw [run_labels ok] at found
    simp only [empty, Dict.get?, Option.none_or] at found
    obtain ⟨before, after, rfl, rfl⟩ := labelsFrom_boundary cs 0 found
    obtain ⟨b, first, -⟩ := run_split ok
    exact ⟨before, after, b, rfl, first, by rw [run_length first]; simp⟩
  · rintro ⟨msg, failed⟩
    by_contra none
    push Not at none
    obtain ⟨text, result⟩ := patchAll_ok a.relocs none a.code
    rw [Assembler.link, result] at failed
    cases failed
  · intro stuck
    obtain ⟨msg, failed⟩ := patchAll_error a.relocs stuck a.code
    exact ⟨msg, by rw [Assembler.link, failed]; rfl⟩
  · intro all
    obtain ⟨text, result⟩ := patchAll_ok a.relocs all a.code
    have link : a.link offs = .ok { a with code := text } := by rw [Assembler.link, result]; rfl
    obtain ⟨length, outside, fields⟩ := link_fields ok link
    refine ⟨_, link, length, outside, fun r member target found => ?_⟩
    obtain ⟨target', found', distance⟩ := fields r member
    obtain rfl : target' = target := Option.some.inj (found'.symm.trans found)
    exact distance

/-- A loop: a forward conditional jump over a backward one. -/
theorem link_correct_loop : LinkCorrect false [.label "loop", .jcc "eq" "done", .jmp "loop", .label "done"]
    ⟨[0x0F, 0x84, 0, 0, 0, 0, 0xE9, 0, 0, 0, 0], [("loop", 0), ("done", 11)],
      [⟨2, "done"⟩, ⟨7, "loop"⟩], false⟩ :=
  link_correct false _ _ rfl

end Assembler

end Aclm.Encoder
