import Aclm.Parser.Program
import Aclm.Lexer.Pieces

/-! Which of the bytes written behind `raw:` are the bytes that are read. -/

set_option autoImplicit false

namespace Aclm.Parse

open X64 (Byte)
open Lexer Text

variable {U : CharClasses}

/-! ### Hexadecimal digits -/

def hexDigits : Text := "0123456789abcdefABCDEF".toList

def nibble (c : Char) : Nat :=
  if c.isDigit then c.toNat - 48 else if c.isLower then c.toNat - 87 else c.toNat - 55

/-- Two hexadecimal digits, in either case, that stand for the byte. -/
structure Spells (b : Byte) (hi lo : Char) : Prop where
  hi_mem : hi ∈ hexDigits
  lo_mem : lo ∈ hexDigits
  hi_eq : nibble hi = b.toNat / 16
  lo_eq : nibble lo = b.toNat % 16

theorem hexDigits_ascii : Ascii hexDigits := by
  intro c member
  revert c
  decide

theorem int_pair_ascii : ∀ hi ∈ hexDigits, ∀ lo ∈ hexDigits,
    Text.int .ascii 16 [hi, lo] = .ok ((16 * nibble hi + nibble lo : Nat) : Int) := by
  decide

theorem int_single_ascii : ∀ c ∈ hexDigits, Text.int .ascii 16 [c] = .ok (nibble c : Int) := by
  decide

theorem int_pair {hi lo : Char} (hi_mem : hi ∈ hexDigits) (lo_mem : lo ∈ hexDigits) :
    Text.int U 16 [hi, lo] = .ok ((16 * nibble hi + nibble lo : Nat) : Int) := by
  rw [int_ascii 16 (s := [hi, lo]), int_pair_ascii hi hi_mem lo lo_mem]
  intro c member
  rcases List.mem_pair.mp member with rfl | rfl
  · exact hexDigits_ascii c hi_mem
  · exact hexDigits_ascii c lo_mem

theorem int_single {c : Char} (member : c ∈ hexDigits) : Text.int U 16 [c] = .ok (nibble c : Int) := by
  rw [int_ascii 16 (s := [c]), int_single_ascii c member]
  intro d same
  rw [List.mem_singleton.mp same]
  exact hexDigits_ascii c member

/-- A digit is decimal if its value is; otherwise it is a letter that may begin a name. -/
theorem digit_or_letter : ∀ c ∈ hexDigits, (c.isDigit = true ∧ nibble c < 10) ∨
    (identStart c = true ∧ 10 ≤ nibble c ∧ c.isDigit = false ∧ c ≠ 'x' ∧ c ≠ 'X') := by
  decide

theorem hexDigit_alnum {c : Char} (member : c ∈ hexDigits) : U.isalnum c = true := by
  have ascii : ∀ c ∈ hexDigits, c.isAlphanum = true := by decide
  rw [U.ascii_alnum c (hexDigits_ascii c member), ascii c member]

/-! ### Tokens that the loops read as bytes -/

/-- The tokens are read as these bytes; tokens of a kind in `gap` may stand between them. -/
inductive Bytes (self : Parser) (gap : T → Prop) : List Tok → List Byte → Prop
  | nil : Bytes self gap [] []
  | gap {t toks bs} : gap t.kind → Bytes self gap toks bs → Bytes self gap (t :: toks) bs
  | number {t toks bs b} : t.kind = .number → (∀ rest, rawNumber t.value self rest = .ok (b, rest)) →
      Bytes self gap toks bs → Bytes self gap (t :: toks) (b :: bs)
  | ident {t toks bs v} : t.kind = .ident → lower t.value ∉ ["raw", "begin"] →
      Text.int self.chars 16 t.value.toList = .ok v → Bytes self gap toks bs →
      Bytes self gap (t :: toks) (byteOf v :: bs)

variable {self : Parser}

theorem rawLine_run {toks : List Tok} {bs : List Byte} (bytes : Bytes self (· = .comma) toks bs) {more : List Tok}
    (ends : EndsStatement more) (parts : List Byte) {n : Nat} (enough : toks.length < n) :
    rawLine n parts self (toks ++ more) = .ok (parts ++ bs, more) := by
  induction bytes generalizing parts n with
  | nil =>
    obtain ⟨n, rfl⟩ := Nat.exists_eq_succ_of_ne_zero (Nat.ne_of_gt (Nat.lt_of_le_of_lt (Nat.zero_le _) enough))
    rw [rawLine, List.nil_append, bind_run (atEnd_run ends), List.append_nil]
    rfl
  | gap comma bytes ih =>
    obtain ⟨n, rfl⟩ := Nat.exists_eq_succ_of_ne_zero (Nat.ne_of_gt (Nat.lt_of_le_of_lt (Nat.zero_le _) enough))
    rw [rawLine, List.cons_append, bind_run (atEnd_cons (by simp [comma])), if_neg (by decide),
      bind_run (accept_cons comma (by decide))]
    exact ih parts (Nat.lt_of_succ_lt_succ enough)
  | number kind value bytes ih =>
    obtain ⟨n, rfl⟩ := Nat.exists_eq_succ_of_ne_zero (Nat.ne_of_gt (Nat.lt_of_le_of_lt (Nat.zero_le _) enough))
    rw [rawLine, List.cons_append, bind_run (atEnd_cons (by simp [kind])), if_neg (by decide),
      bind_run (accept_other (by simp [kind])), if_neg (by decide), bind_run peek_cons, if_pos kind,
      bind_run (adv_cons (by simp [kind])), bind_run (value _), ih _ (Nat.lt_of_succ_lt_succ enough), List.append_assoc]
    rfl
  | ident kind other value bytes ih =>
    obtain ⟨n, rfl⟩ := Nat.exists_eq_succ_of_ne_zero (Nat.ne_of_gt (Nat.lt_of_le_of_lt (Nat.zero_le _) enough))
    rw [rawLine, List.cons_append, bind_run (atEnd_cons (by simp [kind])), if_neg (by decide),
      bind_run (accept_other (by simp [kind])), if_neg (by decide), bind_run peek_cons, if_neg (by simp [kind]), if_pos kind,
      bind_run (adv_cons (by simp [kind])), bind_run (int_run value), ih _ (Nat.lt_of_succ_lt_succ enough),
      List.append_assoc]
    rfl

/-- The end of the block, as tokens. -/
structure BlockEnd (last : List Tok) : Prop where
  shape : ∃ word colon stop, last = [word, colon, stop] ∧ word.kind = .ident ∧ lower word.value = "raw" ∧
    colon.kind = .colon ∧ stop.kind = .ident ∧ lower stop.value = "end"

theorem rawBlock_run {toks : List Tok} {bs : List Byte} (bytes : Bytes self (fun k => k = .comma ∨ k = .newline) toks bs)
    {last more : List Tok} (ends : BlockEnd last) (parts : List Byte) {n : Nat} (enough : toks.length < n) :
    rawBlock n parts self (toks ++ (last ++ more)) = .ok (parts ++ bs, more) := by
  induction bytes generalizing parts n with
  | nil =>
    obtain ⟨n, rfl⟩ := Nat.exists_eq_succ_of_ne_zero (Nat.ne_of_gt (Nat.lt_of_le_of_lt (Nat.zero_le _) enough))
    obtain ⟨word, colon, stop, rfl, kind, raw, colonKind, stopKind, stopWord⟩ := ends.shape
    simp only [rawBlock, List.nil_append, List.cons_append]
    rw [bind_run peek_cons, kind]
    simp only
    rw [bind_run (adv_cons (by simp [kind])), if_pos raw, bind_run (colon_cons colonKind), bind_run (keyword_cons stopKind),
      if_neg (by simp [stopWord]), List.append_nil]
    rfl
  | gap between bytes ih =>
    obtain ⟨n, rfl⟩ := Nat.exists_eq_succ_of_ne_zero (Nat.ne_of_gt (Nat.lt_of_le_of_lt (Nat.zero_le _) enough))
    rw [rawBlock, List.cons_append, bind_run peek_cons]
    rcases between with kind | kind
    all_goals
      rw [kind]
      simp only
      rw [bind_run (adv_cons (by simp [kind]))]
      exact ih parts (Nat.lt_of_succ_lt_succ enough)
  | number kind value bytes ih =>
    obtain ⟨n, rfl⟩ := Nat.exists_eq_succ_of_ne_zero (Nat.ne_of_gt (Nat.lt_of_le_of_lt (Nat.zero_le _) enough))
    rw [rawBlock, List.cons_append, bind_run peek_cons, kind]
    simp only
    rw [bind_run (adv_cons (by simp [kind])), bind_run (value _), ih _ (Nat.lt_of_succ_lt_succ enough), List.append_assoc]
    rfl
  | ident kind other value bytes ih =>
    obtain ⟨n, rfl⟩ := Nat.exists_eq_succ_of_ne_zero (Nat.ne_of_gt (Nat.lt_of_le_of_lt (Nat.zero_le _) enough))
    rw [rawBlock, List.cons_append, bind_run peek_cons, kind]
    simp only
    rw [bind_run (adv_cons (by simp [kind])), if_neg (fun same => other (by simp [same])), bind_run (int_run value),
      ih _ (Nat.lt_of_succ_lt_succ enough), List.append_assoc]
    rfl

/-! ### Written bytes -/

/-- The bytes as two digits each, with characters of a class around them and at least one between. -/
inductive Written (gap : Char → Prop) : List Byte → Text → Prop
  | one {b hi lo} {lead trail : Text} : (∀ c ∈ lead, gap c) → Spells b hi lo → (∀ c ∈ trail, gap c) →
      Written gap [b] (lead ++ hi :: lo :: trail)
  | more {b hi lo between bs text} {lead : Text} : (∀ c ∈ lead, gap c) → Spells b hi lo → gap between →
      Written gap bs text → Written gap (b :: bs) (lead ++ hi :: lo :: between :: text)

def Blank (c : Char) : Prop := c = ' ' ∨ c = '\t'

/-- Decimal digit and letter, which the lexer takes apart. -/
def TornApart (b : Byte) : Prop := b.toNat / 16 < 10 ∧ 10 ≤ b.toNat % 16

instance (b : Byte) : Decidable (TornApart b) := inferInstanceAs (Decidable (_ ∧ _))

/-- The bytes that are read where these are written without quotes. -/
def torn (bs : List Byte) : List Byte :=
  bs.flatMap fun b => if TornApart b then [byteOf (b.toNat / 16 : Nat), byteOf (b.toNat % 16 : Nat)] else [b]

theorem byteOf_toNat (b : Byte) : byteOf (b.toNat : Int) = b := by
  rw [byteOf, BitVec.ofInt_natCast, BitVec.ofNat_toNat, BitVec.setWidth_eq]

theorem Spells.value {b : Byte} {hi lo : Char} (spells : Spells b hi lo) : 16 * nibble hi + nibble lo = b.toNat := by
  rw [spells.hi_eq, spells.lo_eq, Nat.div_add_mod]

theorem no_base_pair : ∀ hi ∈ hexDigits, ∀ lo ∈ hexDigits, lo.isDigit = true →
    ["0x", "0X", "0b", "0B", "0o", "0O"].any (startsWith (.ofList [hi, lo])) = false := by
  intro hi _ lo _ digit
  -- None of the letters of a base is a decimal digit.
  have apart : ∀ c ∈ ['x', 'X', 'b', 'B', 'o', 'O'], (c == lo) = false := by
    intro c member
    rw [beq_eq_false_iff_ne]
    rintro rfl
    revert c
    decide
  simp only [List.mem_cons, List.not_mem_nil, or_false, forall_eq_or_imp, forall_eq] at apart
  obtain ⟨x, X, b, B, o, O⟩ := apart
  simp [startsWith, List.isPrefixOf, x, X, b, B, o, O]

theorem no_base_single : ∀ c ∈ hexDigits,
    ["0x", "0X", "0b", "0B", "0o", "0O"].any (startsWith (.ofList [c])) = false := by
  decide

/-- Lower case keeps the length of a word. -/
theorem no_word {s : Text} (short : s.length < 3) : lower (.ofList s) ∉ ["raw", "begin"] := by
  have length : (lower (.ofList s)).toList.length = s.length := by simp [lower]
  intro member
  simp only [List.mem_cons, List.not_mem_nil, or_false] at member
  rcases member with word | word <;> rw [word] at length <;> exact absurd (length ▸ short) (by decide)

/-- A number that does not name its base is hexadecimal. -/
theorem rawNumber_run {self : Parser} {s : Text} {n : Nat}
    (plain : ["0x", "0X", "0b", "0B", "0o", "0O"].any (startsWith (.ofList s)) = false)
    (value : Text.int self.chars 16 s = .ok (n : Int)) (rest : List Tok) :
    rawNumber (.ofList s) self rest = .ok (byteOf n, rest) := by
  rw [rawNumber]
  simp only [plain, Bool.false_eq_true, if_false]
  rw [bind_run (int_run (by rw [String.toList_ofList]; exact value))]
  rfl

theorem begins_number_of_word {rest : Text} (stop : begins (word U) rest = false) :
    begins (fun d => U.isdigit d || d == 'x' || d == 'X') rest = false := by
  cases rest with
  | nil => rfl
  | cons c rest =>
    simp only [begins, word, Bool.or_eq_false_iff, beq_eq_false_iff_ne] at stop ⊢
    refine ⟨⟨?_, ?_⟩, ?_⟩
    · cases digit : U.isdigit c with
      | false => rfl
      | true => exact absurd (U.alnum_of_digit c digit) (by simp [stop.1])
    all_goals
      rintro rfl
      exact absurd stop.1 (by rw [U.ascii_alnum _ (by decide)]; decide)

/-- The two digits of a byte, and nothing behind them that would belong to the same word. -/
theorem reads_spelled (file : String) (gap : T → Prop) {b : Byte} {hi lo : Char} (spells : Spells b hi lo) (p : Pos)
    {rest : Text} (stop : begins (word U) rest = false) :
    ∃ toks, Reads U file p [hi, lo] toks rest ∧
      ∀ more bs, Bytes ⟨file, U⟩ gap more bs → Bytes ⟨file, U⟩ gap (toks ++ more) (torn [b] ++ bs) := by
  have value := spells.value
  have hiWord : word U hi = true := by simp [word, hexDigit_alnum spells.hi_mem]
  have loWord : word U lo = true := by simp [word, hexDigit_alnum spells.lo_mem]
  rcases digit_or_letter hi spells.hi_mem with ⟨hiDigit, hiSmall⟩ | ⟨hiLetter, hiLarge, _, _, _⟩
  · rcases digit_or_letter lo spells.lo_mem with ⟨loDigit, loSmall⟩ | ⟨loLetter, loLarge, loOther, notx, notX⟩
    · -- one number
      have whole : ¬TornApart b := fun is => by have := spells.lo_eq; have := is.2; omega
      refine ⟨_, reads_number p (s := [lo]) hiDigit (by simpa using loDigit) (begins_number_of_word stop), fun more bs bytes => ?_⟩
      have byte := Bytes.number (t := ⟨.number, .ofList [hi, lo], p.line, p.col⟩) rfl
        (rawNumber_run (no_base_pair hi spells.hi_mem lo spells.lo_mem loDigit)
          (int_pair spells.hi_mem spells.lo_mem)) bytes
      rw [value, byteOf_toNat] at byte
      simpa [torn, whole] using byte
    · -- a number and a name
      have apart : TornApart b := ⟨by rw [← spells.hi_eq]; exact hiSmall, by rw [← spells.lo_eq]; exact loLarge⟩
      have first : Reads U file p [hi] _ (lo :: rest) := reads_number p hiDigit (by simp) (by
        simp [begins, U.ascii_digit lo (hexDigits_ascii lo spells.lo_mem), loOther, notx, notX])
      have second : Reads U file (p.past [hi]) [lo] _ rest := reads_ident _ loLetter (by simp) stop
      refine ⟨_, first.append second, fun more bs bytes => ?_⟩
      have byte := Bytes.ident (t := ⟨.ident, .ofList [lo], (p.past [hi]).line, (p.past [hi]).col⟩) rfl
        (no_word (show 1 < 3 by decide)) (by rw [String.toList_ofList]; exact int_single spells.lo_mem) bytes
      have bytes := Bytes.number (t := ⟨.number, .ofList [hi], p.line, p.col⟩) rfl
        (rawNumber_run (no_base_single hi spells.hi_mem) (int_single spells.hi_mem)) byte
      rw [spells.hi_eq, spells.lo_eq] at bytes
      simpa [torn, apart] using bytes
  · -- one name
    have whole : ¬TornApart b := fun is => by have := spells.hi_eq; have := is.1; omega
    refine ⟨_, reads_ident p (s := [lo]) hiLetter (by simpa using loWord) stop, fun more bs bytes => ?_⟩
    have byte := Bytes.ident (t := ⟨.ident, .ofList [hi, lo], p.line, p.col⟩) rfl
      (no_word (show 2 < 3 by decide))
      (by rw [String.toList_ofList]; exact int_pair spells.hi_mem spells.lo_mem) bytes
    rw [value, byteOf_toNat] at byte
    simpa [torn, whole] using byte

/-- Characters that are read as tokens of a class, or as none. -/
structure Between (U : CharClasses) (gap : Char → Prop) (kinds : T → Prop) : Prop where
  apart : ∀ c, gap c → word U c = false
  reads : ∀ c, gap c → ∀ (file : String) (p : Pos) (rest : Text),
    ∃ toks, Reads U file p [c] toks rest ∧ ∀ t ∈ toks, kinds t.kind

variable {gap : Char → Prop} {kinds : T → Prop}

theorem Between.run (between : Between U gap kinds) {s : Text} (all : ∀ c ∈ s, gap c) (file : String) (p : Pos)
    (rest : Text) : ∃ toks, Reads U file p s toks rest ∧ ∀ t ∈ toks, kinds t.kind := by
  induction s generalizing p with
  | nil => exact ⟨[], .nil p rest, by simp⟩
  | cons c s ih =>
    obtain ⟨first, reads, ofKind⟩ := between.reads c (all c List.mem_cons_self) file p (s ++ rest)
    obtain ⟨others, reads', ofKind'⟩ := ih (fun d member => all d (List.mem_cons_of_mem _ member)) (p.past [c])
    refine ⟨first ++ others, reads.append (s := [c]) reads', fun t member => ?_⟩
    exact (List.mem_append.mp member).elim (ofKind t) (ofKind' t)

theorem Bytes.pass {self : Parser} {toks more : List Tok} {bs : List Byte} (passed : ∀ t ∈ toks, kinds t.kind)
    (bytes : Bytes self kinds more bs) : Bytes self kinds (toks ++ more) bs := by
  induction toks with
  | nil => exact bytes
  | cons t toks ih =>
    exact .gap (passed t List.mem_cons_self) (ih fun t member => passed t (List.mem_cons_of_mem _ member))

theorem Bytes.append {self : Parser} {toks more : List Tok} {bs : List Byte} (bytes : Bytes self kinds toks bs)
    (behind : Bytes self kinds more []) : Bytes self kinds (toks ++ more) bs := by
  induction bytes with
  | nil => exact behind
  | gap kind _ ih => exact .gap kind ih
  | number kind value _ ih => exact .number kind value ih
  | ident kind other value _ ih => exact .ident kind other value ih

theorem begins_gap (between : Between U gap kinds) {s rest : Text} (all : ∀ c ∈ s, gap c)
    (stop : begins (word U) rest = false) : begins (word U) (s ++ rest) = false := by
  cases s with
  | nil => exact stop
  | cons c s => exact between.apart c (all c List.mem_cons_self)

/-- Written bytes are read as bytes, those that are torn apart as two. -/
theorem written_reads (between : Between U gap kinds) {bs : List Byte} {text : Text} (written : Written gap bs text)
    (file : String) (p : Pos) {rest : Text} (stop : begins (word U) rest = false) :
    ∃ toks, Reads U file p text toks rest ∧ Bytes ⟨file, U⟩ kinds toks (torn bs) := by
  induction written generalizing p with
  | @one b hi lo lead trail leads spells trails =>
    obtain ⟨before, readsBefore, passBefore⟩ := between.run leads file p ([hi, lo] ++ (trail ++ rest))
    obtain ⟨byte, reads, bytes⟩ := reads_spelled file kinds spells (p.past lead) (begins_gap between trails stop)
    obtain ⟨behind, readsBehind, passBehind⟩ := between.run trails file ((p.past lead).past [hi, lo]) rest
    refine ⟨before ++ (byte ++ behind), ?_, .pass passBefore ?_⟩
    · exact readsBefore.append (t := [hi, lo] ++ trail) (reads.append readsBehind)
    · have := bytes behind [] (by simpa using Bytes.pass passBehind .nil)
      simpa using this
  | @more b hi lo c bs text lead leads spells sep written ih =>
    obtain ⟨before, readsBefore, passBefore⟩ := between.run leads file p ([hi, lo] ++ ([c] ++ (text ++ rest)))
    obtain ⟨byte, reads, bytes⟩ := reads_spelled file kinds spells (p.past lead)
      (show begins (word U) ([c] ++ (text ++ rest)) = false from between.apart c sep)
    obtain ⟨sepToks, readsSep, passSep⟩ := between.reads c sep file ((p.past lead).past [hi, lo]) (text ++ rest)
    obtain ⟨others, readsOthers, bytesOthers⟩ := ih (((p.past lead).past [hi, lo]).past [c])
    refine ⟨before ++ (byte ++ (sepToks ++ others)), ?_, .pass passBefore ?_⟩
    · exact readsBefore.append (t := [hi, lo] ++ ([c] ++ text))
        (reads.append (t := [c] ++ text) (readsSep.append readsOthers))
    · have := bytes (sepToks ++ others) (torn bs) (.pass passSep bytesOthers)
      simpa [torn] using this

/-! ### Quoted bytes -/

def BlankOrComma (c : Char) : Prop := Blank c ∨ c = ','

theorem Blank.space {c : Char} (blank : Blank c) : isSpace c = true := by
  rcases blank with rfl | rfl <;> rfl

theorem hexDigits_plain : ∀ c ∈ hexDigits, isSpace c = false ∧ c ≠ ',' ∧ c ≠ '"' ∧ c ≠ '\\' := by
  decide

theorem Written.chars {bs : List Byte} {text : Text} (written : Written gap bs text) :
    ∀ c ∈ text, gap c ∨ c ∈ hexDigits := by
  induction written with
  | one leads spells trails =>
    intro c member
    simp only [List.mem_append, List.mem_cons] at member
    rcases member with lead | rfl | rfl | trail
    · exact .inl (leads c lead)
    · exact .inr spells.hi_mem
    · exact .inr spells.lo_mem
    · exact .inl (trails c trail)
  | more leads spells sep written ih =>
    intro c member
    simp only [List.mem_append, List.mem_cons] at member
    rcases member with lead | rfl | rfl | rfl | behind
    · exact .inl (leads c lead)
    · exact .inr spells.hi_mem
    · exact .inr spells.lo_mem
    · exact .inl sep
    · exact ih c behind

/-- The two digits of a byte are one piece. -/
theorem pieces_spelled {b : Byte} {hi lo : Char} (spells : Spells b hi lo) : pieces isSpace [hi, lo] = [[hi, lo]] := by
  refine pieces_word (by simp) fun c member => ?_
  rcases List.mem_pair.mp member with rfl | rfl
  · exact (hexDigits_plain _ spells.hi_mem).1
  · exact (hexDigits_plain _ spells.lo_mem).1

theorem pieces_lead {lead : Text} (leads : ∀ c ∈ lead, isSpace c = true) (s : Text) :
    pieces isSpace (lead ++ s) = pieces isSpace s := by
  induction lead with
  | nil => rfl
  | cons c lead ih =>
    have apart := pieces_append [] (lead ++ s) (leads c List.mem_cons_self)
    rw [List.nil_append] at apart
    rw [List.cons_append, apart, ih fun d member => leads d (List.mem_cons_of_mem _ member)]
    rfl

/-- With the commas replaced, the pieces are the bytes. -/
theorem pieces_written {f : Char → Char} (digits : ∀ c ∈ hexDigits, f c = c) (gaps : ∀ c, gap c → isSpace (f c) = true)
    {bs : List Byte} {text : Text} (written : Written gap bs text) :
    List.Forall₂ (fun b piece => ∃ hi lo, piece = [hi, lo] ∧ Spells b hi lo) bs (pieces isSpace (text.map f)) := by
  have spaces {s : Text} (all : ∀ c ∈ s, gap c) : ∀ c ∈ s.map f, isSpace c = true := by
    intro c member
    obtain ⟨d, inside, rfl⟩ := List.mem_map.mp member
    exact gaps d (all d inside)
  induction written with
  | @one b hi lo lead trail leads spells trails =>
    have word : pieces isSpace ((lead ++ hi :: lo :: trail).map f) = [[hi, lo]] := by
      rw [List.map_append, pieces_lead (spaces leads), List.map_cons, List.map_cons, digits hi spells.hi_mem,
        digits lo spells.lo_mem]
      cases trail with
      | nil => exact pieces_spelled spells
      | cons c trail =>
        have trails := spaces trails
        rw [List.map_cons] at trails ⊢
        rw [show hi :: lo :: f c :: trail.map f = [hi, lo] ++ f c :: trail.map f from rfl,
          pieces_append _ _ (trails _ List.mem_cons_self), pieces_spelled spells,
          pieces_separators fun d member => trails d (List.mem_cons_of_mem _ member)]
        rfl
    rw [word]
    exact .cons ⟨hi, lo, rfl, spells⟩ .nil
  | @more b hi lo c bs text lead leads spells sep written ih =>
    have word : pieces isSpace ((lead ++ hi :: lo :: c :: text).map f) = [hi, lo] :: pieces isSpace (text.map f) := by
      rw [List.map_append, pieces_lead (spaces leads), List.map_cons, List.map_cons, List.map_cons, digits hi spells.hi_mem,
        digits lo spells.lo_mem, show hi :: lo :: f c :: text.map f = [hi, lo] ++ f c :: text.map f from rfl,
        pieces_append _ _ (gaps c sep), pieces_spelled spells]
      rfl
    rw [word]
    exact .cons ⟨hi, lo, rfl, spells⟩ ih

theorem mapM_run {self : Parser} {bs : List Byte} {pieces : List Text}
    (spelled : List.Forall₂ (fun b piece => ∃ hi lo, piece = [hi, lo] ∧ Spells b hi lo) bs pieces) (rest : List Tok) :
    (pieces.mapM fun p => byteOf <$> int 16 (.ofList p)) self rest = .ok (bs, rest) := by
  induction spelled with
  | nil => rfl
  | cons spelled _ ih =>
    obtain ⟨hi, lo, rfl, spells⟩ := spelled
    have first : int 16 (.ofList [hi, lo]) self rest = .ok (_, rest) :=
      int_run (by rw [String.toList_ofList]; exact int_pair spells.hi_mem spells.lo_mem)
    rw [spells.value] at first
    rw [List.mapM_cons, bind_run (map_run first), bind_run ih, pure_run, byteOf_toNat]

theorem quotedBytes_run {self : Parser} {bs : List Byte} {text : Text} (written : Written BlankOrComma bs text)
    (rest : List Tok) : quotedBytes (.ofList text) self rest = .ok (bs, rest) := by
  rw [quotedBytes, String.toList_ofList, replace_single, Text.split]
  refine mapM_run (pieces_written (fun c member => if_neg (hexDigits_plain c member).2.1) (fun c gap => ?_) written) rest
  rcases gap with blank | rfl
  · split
    · rfl
    · exact blank.space
  · rfl

/-! ### The statement -/

inductive RawForm where
  | line | block | quoted
  deriving DecidableEq

def BlockGap (c : Char) : Prop := BlankOrComma c ∨ c = '\n'

/-- The ways to write a list of bytes as a statement. -/
inductive Writes : RawForm → List Byte → Text → Prop
  | line {bs body} : Written BlankOrComma bs body → Writes .line bs (['r', 'a', 'w'] ++ ([':'] ++ body))
  | block {bs first body last} : BlockGap first → Written BlockGap bs body → BlockGap last →
      Writes .block bs (['r', 'a', 'w'] ++ ([':'] ++ (['b', 'e', 'g', 'i', 'n'] ++
        (([first] ++ (body ++ [last])) ++ (['r', 'a', 'w'] ++ ([':'] ++ ['e', 'n', 'd']))))))
  | quoted {bs body} {lead : Text} : (∀ c ∈ lead, Blank c) → Written BlankOrComma bs body →
      Writes .quoted bs (['r', 'a', 'w'] ++ ([':'] ++ (lead ++ '"' :: (body ++ ['"']))))

/-- The end of the text or of the line. -/
def EndsLine (rest : Text) : Prop := rest = [] ∨ ∃ s, rest = '\n' :: s

/-- Wherever the text stands in a source, it is read as the statement, up to the end of the line. -/
def ReadsAs (U : CharClasses) (text : Text) (op : Op) : Prop :=
  ∀ (file : String) (p : Pos) (rest : Text) (toks : List Tok), EndsLine rest →
    tokenizeFrom U file 0 (p.past text) rest = .ok toks →
    ∃ read, tokenizeFrom U file 0 p (text ++ rest) = .ok read ∧
      statement ⟨file, U⟩ read = .ok (.op p.line op, toks)

theorem EndsLine.stop {rest : Text} (ends : EndsLine rest) : begins (word U) rest = false := by
  rcases ends with rfl | ⟨s, rfl⟩
  · rfl
  · rw [begins, word_ascii U (by decide)]
    rfl

theorem EndsLine.statement {rest : Text} {toks : List Tok} {file : String} {p : Pos} (ends : EndsLine rest)
    (lexed : tokenizeFrom U file 0 p rest = .ok toks) : EndsStatement toks := by
  rcases ends with rfl | ⟨s, rfl⟩
  · cases lexed
    exact ⟨_, _, rfl, .inr rfl⟩
  · have reads : Reads U file p ['\n'] _ s := reads_newline p s
    rw [Reads, List.singleton_append, lexed] at reads
    cases behind : tokenizeFrom U file 0 (p.past ['\n']) s with
    | error e =>
      rw [behind] at reads
      cases reads
    | ok others =>
      rw [behind] at reads
      cases reads
      exact ⟨_, _, rfl, .inl rfl⟩

theorem word_gap {c : Char} (gap : BlockGap c) : word U c = false := by
  rcases gap with ((rfl | rfl) | rfl) | rfl
  all_goals
    rw [word_ascii U (by decide)]
    rfl

theorem between_line : Between U BlankOrComma (· = .comma) where
  apart c gap := word_gap (.inl gap)
  reads c gap file p rest := by
    rcases gap with blank | rfl
    · exact ⟨[], reads_blank p blank rest, by simp⟩
    · exact ⟨_, reads_punctuation p rfl rest, by simp⟩

theorem between_block : Between U BlockGap (fun k => k = .comma ∨ k = .newline) where
  apart c gap := word_gap gap
  reads c gap file p rest := by
    rcases gap with (blank | rfl) | rfl
    · exact ⟨[], reads_blank p blank rest, by simp⟩
    · exact ⟨_, reads_punctuation p rfl rest, by simp⟩
    · exact ⟨_, reads_newline p rest, by simp⟩

theorem raw_form : forms.get? (lower "raw") = some (ofColon raw) := rfl

/-- `raw:` and what is read behind it. -/
theorem readsAs_raw {body : Text} {op : Op}
    (behind : ∀ (file : String) (p : Pos) (rest : Text) (toks : List Tok), EndsLine rest →
      tokenizeFrom U file 0 (p.past body) rest = .ok toks →
      ∃ read, Reads U file p body read rest ∧ raw ⟨file, U⟩ (read ++ toks) = .ok (op, toks)) :
    ReadsAs U (['r', 'a', 'w'] ++ ([':'] ++ body)) op := by
  intro file p rest toks ends lexed
  have inner := lexed
  rw [Pos.past_append, Pos.past_append] at inner
  obtain ⟨read, reads, ran⟩ := behind file ((p.past ['r', 'a', 'w']).past [':']) rest toks ends inner
  have colonReads : Reads U file (p.past ['r', 'a', 'w']) [':'] _ (body ++ rest) := reads_punctuation _ rfl _
  have wordReads : Reads U file p ['r', 'a', 'w'] _ ([':'] ++ body ++ rest) :=
    reads_ident p rfl (by simp [word_ascii]) (word_ascii U (c := ':') (by decide))
  refine ⟨_, (wordReads.append (colonReads.append reads)).ok lexed, ?_⟩
  refine statement_run rfl (show lower "raw" ≠ "fn" by decide) raw_form ?_
  exact (bind_run (colon_cons rfl)).trans ran

/-- The first token decides between the forms. -/
theorem Bytes.head {self : Parser} {toks more : List Tok} {bs : List Byte} (bytes : Bytes self kinds toks bs)
    (noString : ¬kinds .string) (noWord : ¬kinds .ident) (ends : EndsStatement more) :
    ∃ t rest, toks ++ more = t :: rest ∧ ¬(t.kind = .ident ∧ lower t.value = "begin") ∧ t.kind ≠ .string := by
  cases bytes with
  | nil =>
    obtain ⟨t, rest, rfl, last⟩ := ends
    exact ⟨t, rest, rfl, by rcases last with kind | kind <;> simp [kind], by rcases last with kind | kind <;> simp [kind]⟩
  | gap kind _ =>
    exact ⟨_, _, rfl, fun word => noWord (word.1 ▸ kind), fun string => noString (string ▸ kind)⟩
  | number kind _ _ => exact ⟨_, _, rfl, by simp [kind], by simp [kind]⟩
  | ident kind other _ _ => exact ⟨_, _, rfl, fun word => other (by simp [word.2]), by simp [kind]⟩

theorem line_reads {bs : List Byte} {body : Text} (written : Written BlankOrComma bs body) :
    ReadsAs U (['r', 'a', 'w'] ++ ([':'] ++ body)) (.rawBytes (torn bs)) := by
  refine readsAs_raw fun file p rest toks ends lexed => ?_
  obtain ⟨read, reads, bytes⟩ := written_reads between_line written file p ends.stop
  refine ⟨read, reads, ?_⟩
  have finished := ends.statement lexed
  have ran := rawLine_run bytes finished [] (n := (read ++ toks).length + 1) (by rw [List.length_append]; omega)
  obtain ⟨t, others, shape, noBegin, noString⟩ := bytes.head (by decide) (by decide) finished
  rw [raw]
  rw [shape] at ran ⊢
  rw [bind_run (atWord_cons _), decide_eq_false noBegin, if_neg (by decide), bind_run kind_cons, if_neg noString,
    bind_run (rfl : remaining _ (t :: others) = _), bind_run ran]
  rfl

/-- Line ends in front of the bytes may be skipped. -/
theorem Bytes.skipNl {self : Parser} {toks more : List Tok} {bs : List Byte} (bytes : Bytes self kinds toks bs)
    {t : Tok} {rest : List Tok} (shape : more = t :: rest) (other : t.kind ≠ .newline) :
    ∃ kept, Parse.skipNl self (toks ++ more) = .ok ((), kept ++ more) ∧ Bytes self kinds kept bs := by
  induction bytes with
  | nil =>
    subst shape
    exact ⟨[], by simp [Parse.skipNl, other], .nil⟩
  | @gap u toks bs kind bytes ih =>
    by_cases newline : u.kind = .newline
    · obtain ⟨kept, skipped, bytes⟩ := ih
      exact ⟨kept, by simpa [Parse.skipNl, newline] using skipped, bytes⟩
    · exact ⟨u :: toks, by simp [Parse.skipNl, newline], .gap kind bytes⟩
  | number kind value bytes _ => exact ⟨_, by simp [Parse.skipNl, kind], .number kind value bytes⟩
  | ident kind other value bytes _ => exact ⟨_, by simp [Parse.skipNl, kind], .ident kind other value bytes⟩

/-- Bytes between two separators may be followed by anything. -/
theorem enclosed_reads (between : Between U gap kinds) {bs : List Byte} {body : Text} {first last : Char}
    (firstGap : gap first) (written : Written gap bs body) (lastGap : gap last) (file : String) (p : Pos) (rest : Text) :
    ∃ toks, Reads U file p ([first] ++ (body ++ [last])) toks rest ∧ Bytes ⟨file, U⟩ kinds toks (torn bs) := by
  obtain ⟨before, readsBefore, passBefore⟩ := between.reads first firstGap file p (body ++ [last] ++ rest)
  obtain ⟨read, reads, bytes⟩ := written_reads between written file (p.past [first])
    (show begins (word U) ([last] ++ rest) = false from between.apart last lastGap)
  obtain ⟨behind, readsBehind, passBehind⟩ := between.reads last lastGap file ((p.past [first]).past body) rest
  refine ⟨before ++ (read ++ behind), readsBefore.append (reads.append readsBehind), .pass passBefore ?_⟩
  exact bytes.append (by simpa using Bytes.pass passBehind .nil)

/-- `raw:end` is read as the end of the block. -/
theorem end_reads (file : String) (p : Pos) {rest : Text} (stop : begins (word U) rest = false) :
    ∃ last, Reads U file p (['r', 'a', 'w'] ++ ([':'] ++ ['e', 'n', 'd'])) last rest ∧ BlockEnd last := by
  have readsEnd : Reads U file ((p.past ['r', 'a', 'w']).past [':']) ['e', 'n', 'd'] _ rest :=
    reads_ident _ rfl (by simp [word_ascii]) stop
  have readsColon : Reads U file (p.past ['r', 'a', 'w']) [':'] _ (['e', 'n', 'd'] ++ rest) := reads_punctuation _ rfl _
  have readsRaw : Reads U file p ['r', 'a', 'w'] _ ([':'] ++ ['e', 'n', 'd'] ++ rest) :=
    reads_ident p rfl (by simp [word_ascii]) (word_ascii U (c := ':') (by decide))
  refine ⟨_, readsRaw.append (readsColon.append readsEnd), ⟨_, _, _, rfl, rfl, ?_, rfl, rfl, ?_⟩⟩
  · exact show lower "raw" = "raw" by decide
  · exact show lower "end" = "end" by decide

theorem block_reads {bs : List Byte} {body : Text} {first last : Char} (firstGap : BlockGap first)
    (written : Written BlockGap bs body) (lastGap : BlockGap last) :
    ReadsAs U (['r', 'a', 'w'] ++ ([':'] ++ (['b', 'e', 'g', 'i', 'n'] ++
      (([first] ++ (body ++ [last])) ++ (['r', 'a', 'w'] ++ ([':'] ++ ['e', 'n', 'd'])))))) (.rawBytes (torn bs)) := by
  refine readsAs_raw fun file p rest toks ends lexed => ?_
  obtain ⟨block, readsBlock, bytes⟩ := enclosed_reads (U := U) between_block firstGap written lastGap file
    (p.past ['b', 'e', 'g', 'i', 'n']) (['r', 'a', 'w'] ++ ([':'] ++ ['e', 'n', 'd']) ++ rest)
  obtain ⟨stop, readsEnd, blockEnd⟩ := end_reads (U := U) file
    ((p.past ['b', 'e', 'g', 'i', 'n']).past ([first] ++ (body ++ [last]))) ends.stop
  have readsBegin : Reads U file p ['b', 'e', 'g', 'i', 'n'] _
      (([first] ++ (body ++ [last])) ++ (['r', 'a', 'w'] ++ ([':'] ++ ['e', 'n', 'd'])) ++ rest) :=
    reads_ident p rfl (by simp [word_ascii]) (word_gap firstGap)
  refine ⟨_, readsBegin.append (readsBlock.append readsEnd), ?_⟩
  obtain ⟨word, colon, last', shape, wordKind, _⟩ := blockEnd.shape
  obtain ⟨kept, skipped, bytes⟩ := bytes.skipNl (show stop ++ toks = _ by rw [shape]; rfl) (by simp [wordKind])
  have enough : kept.length < (kept ++ (stop ++ toks)).length + 1 := by
    rw [List.length_append]
    omega
  have ran := @rawBlock_run _ _ _ bytes stop toks blockEnd [] _ enough
  rw [raw]
  simp only [List.cons_append, List.nil_append, List.append_assoc]
  rw [bind_run (atWord_cons _), decide_eq_true ⟨rfl, show lower "begin" = "begin" by decide⟩, if_pos rfl,
    bind_run (adv_cons (show T.ident ≠ .eof by decide)), bind_run skipped, bind_run (rfl : remaining _ _ = _), bind_run ran]
  rfl

theorem quoted_reads {bs : List Byte} {lead body : Text} (leads : ∀ c ∈ lead, Blank c)
    (written : Written BlankOrComma bs body) :
    ReadsAs U (['r', 'a', 'w'] ++ ([':'] ++ (lead ++ '"' :: (body ++ ['"'])))) (.rawBytes bs) := by
  refine readsAs_raw fun file p rest toks ends lexed => ?_
  have plain : ∀ c ∈ body, c ≠ '"' ∧ c ≠ '\\' := by
    intro c member
    rcases written.chars c member with ((rfl | rfl) | rfl) | digit
    · decide
    · decide
    · decide
    · exact (hexDigits_plain c digit).2.2
  have blanks : Between U Blank (fun _ => False) := {
    apart := fun c blank => word_gap (.inl (.inl blank))
    reads := fun c blank file p rest => ⟨[], reads_blank p blank rest, by simp⟩ }
  obtain ⟨none, readsLead, empty⟩ := blanks.run leads file p ('"' :: (body ++ ['"']) ++ rest)
  have nothing : none = [] := List.eq_nil_iff_forall_not_mem.mpr empty
  subst nothing
  have readsString : Reads U file (p.past lead) ('"' :: (body ++ ['"'])) _ rest := reads_string _ plain rest
  refine ⟨_, readsLead.append readsString, ?_⟩
  rw [raw]
  simp only [List.cons_append, List.nil_append]
  rw [bind_run (atWord_cons _), decide_eq_false (by simp), if_neg (by decide), bind_run kind_cons, if_pos rfl,
    bind_run (adv_cons (show T.string ≠ .eof by decide)), bind_run (quotedBytes_run written toks)]
  rfl

theorem torn_apart {b : Byte} (apart : TornApart b) (bs : List Byte) :
    torn (b :: bs) = byteOf (b.toNat / 16 : Nat) :: byteOf (b.toNat % 16 : Nat) :: torn bs := by
  rw [torn, List.flatMap_cons, if_pos apart]
  rfl

theorem torn_whole {b : Byte} (whole : ¬TornApart b) (bs : List Byte) : torn (b :: bs) = b :: torn bs := by
  rw [torn, List.flatMap_cons, if_neg whole]
  rfl

theorem length_le_torn (bs : List Byte) : bs.length ≤ (torn bs).length := by
  induction bs with
  | nil => exact Nat.le_refl _
  | cons b bs ih =>
    by_cases apart : TornApart b
    · rw [torn_apart apart, List.length_cons, List.length_cons, List.length_cons]
      omega
    · rw [torn_whole apart, List.length_cons, List.length_cons]
      omega

/-- Every byte that is torn apart makes the list longer. -/
theorem torn_eq_iff (bs : List Byte) : torn bs = bs ↔ ∀ b ∈ bs, ¬TornApart b := by
  induction bs with
  | nil => simp [torn]
  | cons b bs ih =>
    rw [List.forall_mem_cons]
    by_cases apart : TornApart b
    · refine iff_of_false (fun same => ?_) (fun all => all.1 apart)
      have length := congrArg List.length same
      rw [torn_apart apart, List.length_cons, List.length_cons, List.length_cons] at length
      have := length_le_torn bs
      omega
    · rw [torn_whole apart, List.cons.injEq, ih]
      exact ⟨fun same => ⟨apart, same.2⟩, fun all => ⟨rfl, all.2⟩⟩

theorem ReadsAs.unique {text : Text} {op op' : Op} (first : ReadsAs U text op) (second : ReadsAs U text op') : op = op' := by
  obtain ⟨read, lexed, ran⟩ := first "" ⟨1, 1⟩ [] _ (.inl rfl) rfl
  obtain ⟨read', lexed', ran'⟩ := second "" ⟨1, 1⟩ [] _ (.inl rfl) rfl
  cases lexed.symm.trans lexed'
  cases ran.symm.trans ran'
  rfl

/-- The statement holds the bytes that are written, in whatever way, except those of a decimal digit and a letter where
they stand without quotes. -/
theorem raw_bytes {form : RawForm} {bs : List Byte} {text : Text} (written : Writes form bs text) :
    ReadsAs U text (.rawBytes bs) ↔ form = .quoted ∨ ∀ b ∈ bs, ¬TornApart b := by
  have unquoted (reads : ReadsAs U text (.rawBytes (torn bs))) (plain : form ≠ .quoted) :
      ReadsAs U text (.rawBytes bs) ↔ form = .quoted ∨ ∀ b ∈ bs, ¬TornApart b := by
    rw [← torn_eq_iff]
    constructor
    · intro same
      exact .inr (Op.rawBytes.inj (reads.unique same))
    · rintro (quoted | same)
      · exact absurd quoted plain
      · rwa [same] at reads
  cases written with
  | line written => exact unquoted (line_reads written) (by decide)
  | block firstGap written lastGap => exact unquoted (block_reads firstGap written lastGap) (by decide)
  | quoted leads written => exact iff_of_true (quoted_reads leads written) (.inl rfl)

theorem written_4A : Written BlankOrComma [0x4A] ['4', 'A'] :=
  @Written.one _ 0x4A _ _ [] [] (by simp) ⟨by decide, by decide, by decide, by decide⟩ (by simp)

/-- The quoted byte is read as it is written, the unquoted one is not. -/
theorem raw_bytes_4A :
    (ReadsAs .ascii "raw: \"4A\"".toList (.rawBytes [0x4A]) ↔ RawForm.quoted = .quoted ∨ ∀ b ∈ [(0x4A : Byte)], ¬TornApart b) ∧
    (ReadsAs .ascii "raw:4A".toList (.rawBytes [0x4A]) ↔ RawForm.line = .quoted ∨ ∀ b ∈ [(0x4A : Byte)], ¬TornApart b) :=
  ⟨raw_bytes (.quoted (show ∀ c ∈ [' '], Blank c by simp [Blank]) written_4A), raw_bytes (.line written_4A)⟩

theorem raw_bytes_torn : ¬∀ (form : RawForm) (bs : List Byte) (text : Text), Writes form bs text →
    ReadsAs .ascii text (.rawBytes bs) := by
  intro all
  have same := (all .line [0x4A] _ (.line written_4A)).unique (line_reads written_4A)
  exact absurd (Op.rawBytes.inj same) (by decide)

end Aclm.Parse
