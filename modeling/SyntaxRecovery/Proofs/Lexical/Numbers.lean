import SyntaxRecovery.Proofs.Lexical.Locality

/-! Number literals have a grammar. What the scanner finds where a digit stands is the longest word
of it, or a fault where a letter, a digit or an underscore follows that word. Only behind a
hexadecimal word an underscore is no fault. -/
namespace SyntaxRecovery

/-- The words of a language, each with what it stands for. -/
abbrev Phrase (α : Type) := Bytes → α → Prop

namespace Phrase
variable {α β : Type} {P : Phrase α} {Q : α → Phrase β} {a b word rest : Bytes} {x value : α}
    {y : β}

/-- A word of `P`, and behind it one of what `P` makes of it. -/
def andThen (P : Phrase α) (Q : α → Phrase β) : Phrase β := fun word y =>
  ∃ a x b, word = a ++ b ∧ P a x ∧ Q x b y

/-- In front of `rest` no word of `P` is longer than this one, and it stands for nothing else. -/
structure Longest (P : Phrase α) (word rest : Bytes) (value : α) : Prop where
  mem : P word value
  best : ∀ {other tail x}, other ++ tail = word ++ rest → P other x →
    other.length < word.length ∨ other = word ∧ x = value

/-- The longest words of both parts make up the longest word, as the second part does not start with
a byte of the first. -/
theorem Longest.andThen (ha : P.Longest a (b ++ rest) x) (hb : (Q x).Longest b rest y)
    (hstart : ∀ {x c w y}, Q x (c :: w) y → c ∉ a) : (P.andThen Q).Longest (a ++ b) rest y where
  mem := ⟨a, x, b, rfl, ha.mem, hb.mem⟩
  best := by
    rintro other tail y' heq ⟨a', x', b', rfl, hP, hQ⟩
    rw [List.append_assoc, List.append_assoc] at heq
    rcases ha.best heq hP with hlt | ⟨rfl, rfl⟩
    · -- Behind a shorter first part stands a byte of `a`, and no second part starts with that.
      left
      cases b' with
      | nil =>
        rw [List.append_nil, List.length_append]
        omega
      | cons c w =>
        rcases List.append_eq_append_iff.mp heq with ⟨u, rfl, hbehind⟩ | ⟨u, rfl, -⟩
        · cases u with
          | nil => simp at hlt
          | cons c' u =>
            obtain ⟨rfl, -⟩ := List.cons.inj hbehind
            exact absurd (List.mem_append_right a' List.mem_cons_self) (hstart hQ)
        · rw [List.length_append] at hlt
          omega
    · rcases hb.best (List.append_cancel_left heq) hQ with hlt | ⟨rfl, rfl⟩
      · left
        rw [List.length_append, List.length_append]
        omega
      · exact .inr ⟨rfl, rfl⟩

theorem start_of_andThen {c : UInt8} {w : Bytes} (h : P.andThen Q (c :: w) y) :
    (∃ w' x, P (c :: w') x) ∨ ∃ x, Q x (c :: w) y := by
  obtain ⟨a, x, b, heq, hP, hQ⟩ := h
  cases a with
  | nil =>
    obtain rfl : b = c :: w := heq.symm
    exact .inr ⟨x, hQ⟩
  | cons c' a =>
    obtain ⟨rfl, -⟩ := List.cons.inj heq
    exact .inl ⟨a, x, hP⟩

theorem Longest.unique {word' rest' : Bytes} {value' : α} (h : P.Longest word rest value)
    (h' : P.Longest word' rest' value') (heq : word' ++ rest' = word ++ rest) :
    word' = word ∧ value' = value := by
  rcases h.best heq h'.mem with hlt | heq'
  · rcases h'.best heq.symm h.mem with hlt' | ⟨hword, -⟩
    · omega
    · rw [hword] at hlt
      exact absurd hlt (Nat.lt_irrefl _)
  · exact heq'

end Phrase

namespace Number
open Byte

/-- A digit, and digits and underscores behind it. -/
inductive Digits : Bytes → Unit → Prop
  | intro {d : UInt8} {rest : Bytes} (hd : isDigit d = true)
    (hrest : ∀ b ∈ rest, inDigits b = true) : Digits (d :: rest) ()

/-- Nothing, or a point and digits. The value tells which. -/
inductive Fraction : Bytes → Bool → Prop
  | absent : Fraction [] false
  | point {digits : Bytes} (h : Digits digits ()) : Fraction (of '.' :: digits) true

/-- Nothing, or plus or minus. -/
inductive Sign : Bytes → Prop
  | absent : Sign []
  | mark {b : UInt8} (hb : b = of '+' ∨ b = of '-') : Sign [b]

/-- Nothing, or a mark, perhaps a sign, and digits or underscores. The value tells whether the
number has a fraction or an exponent. -/
inductive Exponent (fractional : Bool) : Bytes → Bool → Prop
  | absent : Exponent fractional [] fractional
  | power {mark : UInt8} {sign digits : Bytes} (hmark : mark = of 'e' ∨ mark = of 'E')
    (hsign : Sign sign) (hne : digits ≠ []) (hdigits : ∀ b ∈ digits, inDigits b = true) :
    Exponent fractional (mark :: (sign ++ digits)) true

/-- Nothing, or the letter of a long number. -/
inductive IntegerSuffix : Bytes → TokenKind → Prop
  | absent : IntegerSuffix [] .integerLiteral
  | long {b : UInt8} (hb : b = of 'l' ∨ b = of 'L') : IntegerSuffix [b] .longLiteral

/-- Nothing, or a letter. Only a number without fraction and exponent can be a long one. -/
inductive Suffix : Bool → Bytes → TokenKind → Prop
  | integer {suffix : Bytes} {kind : TokenKind} (h : IntegerSuffix suffix kind) :
    Suffix false suffix kind
  | fractional : Suffix true [] .doubleLiteral
  | float {fractional : Bool} {b : UInt8} (hb : b = of 'f' ∨ b = of 'F') :
    Suffix fractional [b] .floatingPointLiteral
  | double {fractional : Bool} {b : UInt8} (hb : b = of 'd' ∨ b = of 'D') :
    Suffix fractional [b] .doubleLiteral

def Decimal : Phrase TokenKind :=
  Phrase.andThen Digits fun _ => Phrase.andThen Fraction fun fractional =>
    Phrase.andThen (Exponent fractional) Suffix

/-- The mark of a hexadecimal number and its digits. -/
inductive HexDigits : Bytes → Unit → Prop
  | intro {x : UInt8} {digits : Bytes} (hx : x = of 'x' ∨ x = of 'X') (hne : digits ≠ [])
    (hdigits : ∀ b ∈ digits, inHexDigits b = true) : HexDigits (of '0' :: x :: digits) ()

def Hexadecimal : Phrase TokenKind := Phrase.andThen HexDigits fun _ => IntegerSuffix

/-- The words that are number literals, and the kind of each. -/
def Literal : Phrase TokenKind := fun word kind => Decimal word kind ∨ Hexadecimal word kind

/-- Bytes that satisfy `p` do not go beyond those in front of one that does not. -/
theorem length_lt_or_eq_of_run {p : UInt8 → Bool} {body after other tail : Bytes}
    (hafter : ∀ b, after.head? = some b → p b = false) (hother : ∀ b ∈ other, p b = true)
    (heq : other ++ tail = body ++ after) : other.length < body.length ∨ other = body := by
  rcases List.append_eq_append_iff.mp heq with ⟨u, rfl, -⟩ | ⟨u, rfl, rfl⟩
  · cases u with
    | nil => exact .inr (List.append_nil other).symm
    | cons => exact .inl (by simp)
  · cases u with
    | nil => exact .inr (List.append_nil body)
    | cons b u =>
      have hin := hother b (List.mem_append_right body List.mem_cons_self)
      rw [hafter b rfl] at hin
      cases hin

theorem Digits.all {word : Bytes} (h : Digits word ()) : ∀ b ∈ word, inDigits b = true := by
  cases h with
  | intro hd hrest => exact List.forall_mem_cons.mpr ⟨by simp [inDigits, hd], hrest⟩

theorem longest_digits {d : UInt8} (hd : isDigit d = true) (rest : Bytes) :
    ∃ word after, d :: rest = word ++ after ∧ Bytes.run inDigits (d :: rest) = word.length ∧
      Phrase.Longest Digits word after () := by
  obtain ⟨body, after, heq, hrun, hbody, hafter⟩ := Bytes.run_split inDigits (d :: rest)
  refine ⟨body, after, heq, hrun, ?_, fun {other tail x} hsplit hother => ?_⟩
  · have hpos : 0 < body.length := hrun ▸ Bytes.run_pos (by simp [inDigits, hd])
    obtain ⟨d', body, rfl⟩ := List.exists_cons_of_length_pos hpos
    obtain ⟨rfl, -⟩ := List.cons.inj heq
    exact .intro hd fun b hb => hbody b (List.mem_cons_of_mem _ hb)
  · rcases length_lt_or_eq_of_run hafter hother.all hsplit with hlt | heq
    · exact .inl hlt
    · exact .inr ⟨heq, rfl⟩

theorem longest_fraction (bytes : Bytes) : ∃ word after, bytes = word ++ after ∧
    fractionLength bytes = word.length ∧
      Phrase.Longest Fraction word after (decide (0 < word.length)) := by
  by_cases h : ∃ d rest, bytes = of '.' :: d :: rest ∧ isDigit d = true
  · obtain ⟨d, rest, rfl, hd⟩ := h
    obtain ⟨digits, after, heq, hrun, hlongest⟩ := longest_digits hd rest
    refine ⟨of '.' :: digits, after, by rw [heq]; rfl, ?_, ?_,
      fun {other tail x} hsplit hother => ?_⟩
    · rw [fractionLength, if_pos ⟨rfl, hd⟩, hrun, List.length_cons, Nat.add_comm]
    · exact .point hlongest.mem
    · cases hother with
      | absent => exact .inl (Nat.succ_pos _)
      | point h' =>
        rcases hlongest.best (List.cons.inj hsplit).2 h' with hlt | ⟨rfl, -⟩
        · exact .inl (Nat.succ_lt_succ hlt)
        · exact .inr ⟨rfl, rfl⟩
  · refine ⟨[], bytes, rfl, ?_, .absent, fun {other tail x} hsplit hother => ?_⟩
    · unfold fractionLength
      split
      · next point digit rest => exact if_neg fun hc => h ⟨digit, rest, by rw [hc.1], hc.2⟩
      · rfl
    · cases hother with
      | absent => exact .inr ⟨rfl, rfl⟩
      | point h' =>
        cases h' with
        | @intro d rest hd => exact absurd ⟨d, rest ++ tail, hsplit.symm, hd⟩ h

theorem Sign.not_inDigits {b : UInt8} (h : Sign [b]) : inDigits b = false := by
  cases h with
  | mark hb => rcases hb with rfl | rfl <;> decide

theorem split_sign (bytes : Bytes) : ∃ sign rest, bytes = sign ++ rest ∧ Sign sign ∧
    (if (bytes.head?.any fun b => b == of '+' || b == of '-') = true then 1 else 0) = sign.length ∧
      (sign = [] → ∀ b rest', rest = b :: rest' → ¬ Sign [b]) := by
  by_cases h : ∃ b rest, bytes = b :: rest ∧ Sign [b]
  · obtain ⟨b, rest, rfl, hb⟩ := h
    refine ⟨[b], rest, rfl, hb, if_pos ?_, fun hnil => absurd hnil (List.cons_ne_nil _ _)⟩
    cases hb with
    | mark hb => simpa using hb
  · refine ⟨[], bytes, rfl, .absent, if_neg fun hany => ?_,
      fun _ b rest heq hb => h ⟨b, rest, heq, hb⟩⟩
    cases bytes with
    | nil => cases hany
    | cons b rest => exact h ⟨b, rest, rfl, .mark (by simpa using hany)⟩

/-- In front of digits there is one way to read a sign. -/
theorem Sign.unique {sign sign' rest rest' : Bytes} (h : Sign sign) (h' : Sign sign')
    (hrest : sign = [] → ∀ b behind, rest = b :: behind → ¬ Sign [b])
    (hrest' : ∀ b behind, rest' = b :: behind → inDigits b = true)
    (heq : sign' ++ rest' = sign ++ rest) : sign' = sign := by
  cases h' with
  | absent =>
    cases h with
    | absent => rfl
    | @mark b hb =>
      have hdigit := hrest' b rest heq
      rw [(Sign.mark hb).not_inDigits] at hdigit
      cases hdigit
  | @mark b hb =>
    cases h with
    | absent => exact absurd (.mark hb) (hrest rfl b rest' heq.symm)
    | mark => exact congrArg (· :: []) (List.cons.inj heq).1

theorem exponentLength_of_not_mark {bytes : Bytes}
    (h : ∀ b rest, bytes = b :: rest → ¬ (b = of 'e' ∨ b = of 'E')) :
    exponentLength bytes = .ok 0 := by
  cases bytes with
  | nil => rfl
  | cons b rest => exact if_neg (h b rest rfl)

/-- The longest exponent, or none where a mark has no digits behind it. -/
theorem longest_exponent (fractional : Bool) (bytes : Bytes) :
    (∃ word after, bytes = word ++ after ∧ exponentLength bytes = .ok word.length ∧
      Phrase.Longest (Exponent fractional) word after (fractional || decide (0 < word.length))) ∨
    ∃ n mark rest, exponentLength bytes = .error n ∧ bytes = mark :: rest ∧
      (mark = of 'e' ∨ mark = of 'E') ∧
      Phrase.Longest (Exponent fractional) [] bytes fractional := by
  by_cases hmark : ∃ mark rest, bytes = mark :: rest ∧ (mark = of 'e' ∨ mark = of 'E')
  · obtain ⟨mark, rest, rfl, hmark⟩ := hmark
    obtain ⟨sign, behind, rfl, hsign, hlength, hnone⟩ := split_sign rest
    obtain ⟨digits, after, rfl, hrun, hdigits, hafter⟩ := Bytes.run_split inDigits behind
    have hexponent : exponentLength (mark :: (sign ++ (digits ++ after))) =
        if digits.length = 0 then .error (1 + sign.length)
          else .ok (1 + sign.length + digits.length) := by
      rw [exponentLength, if_pos hmark]
      simp only [hlength, List.drop_left, hrun]
    -- Whatever exponent stands there has this sign, and no more digits than these.
    have hbest {sign' digits' tail : Bytes} (hsign' : Sign sign') (hne' : digits' ≠ [])
        (hdigits' : ∀ b ∈ digits', inDigits b = true)
        (heq : sign' ++ (digits' ++ tail) = sign ++ (digits ++ after)) :
        sign' = sign ∧ (digits'.length < digits.length ∨ digits' = digits) := by
      have hsame : sign' = sign := by
        refine hsign.unique hsign' hnone (fun b rest hb => ?_) heq
        obtain ⟨d, ds, rfl⟩ := List.exists_cons_of_ne_nil hne'
        exact hdigits' b ((List.cons.inj hb).1 ▸ List.mem_cons_self)
      subst hsame
      exact ⟨rfl, length_lt_or_eq_of_run hafter hdigits' (List.append_cancel_left heq)⟩
    by_cases hne : digits = []
    · subst hne
      refine .inr ⟨_, mark, _, hexponent.trans (if_pos rfl), rfl, hmark, .absent,
        fun {other tail x} hsplit hother => ?_⟩
      cases hother with
      | absent => exact .inr ⟨rfl, rfl⟩
      | power _ hsign' hne' hdigits' =>
        simp only [List.cons_append, List.nil_append, List.cons.injEq, List.append_assoc] at hsplit
        obtain ⟨-, hlt | heq⟩ := hbest hsign' hne' hdigits' hsplit.2
        · exact absurd hlt (Nat.not_lt_zero _)
        · exact absurd heq hne'
    · refine .inl ⟨mark :: (sign ++ digits), after, by simp, ?_, ?_,
        fun {other tail x} hsplit hother => ?_⟩
      · rw [hexponent, if_neg (by simpa using hne), List.length_cons, List.length_append]
        exact congrArg Except.ok (by omega)
      · rw [decide_eq_true (by simp), Bool.or_true]
        exact .power hmark hsign hne hdigits
      · cases hother with
        | absent => exact .inl (Nat.succ_pos _)
        | power _ hsign' hne' hdigits' =>
          simp only [List.cons_append, List.cons.injEq, List.append_assoc] at hsplit
          obtain ⟨rfl, heq⟩ := hsplit
          obtain ⟨rfl, hlt | rfl⟩ := hbest hsign' hne' hdigits' heq
          · left
            simp only [List.length_cons, List.length_append]
            omega
          · exact .inr ⟨rfl, by simp⟩
  · have hzero := exponentLength_of_not_mark fun b rest heq hb => hmark ⟨b, rest, heq, hb⟩
    refine .inl ⟨[], bytes, rfl, hzero, ?_, fun {other tail x} hsplit hother => ?_⟩
    · rw [List.length_nil, decide_eq_false (Nat.lt_irrefl 0), Bool.or_false]
      exact .absent
    · cases hother with
      | absent => exact .inr ⟨rfl, by simp⟩
      | power hmark' => exact absurd ⟨_, _, hsplit.symm, hmark'⟩ hmark

theorem suffix_iff {fractional : Bool} {word : Bytes} {kind : TokenKind} :
    Suffix fractional word kind ↔
      word = [] ∧ kind = (if fractional then .doubleLiteral else .integerLiteral) ∨
        ∃ b, word = [b] ∧ suffixKind fractional b = some kind := by
  constructor
  · intro h
    cases h with
    | integer h =>
      cases h with
      | absent => exact .inl ⟨rfl, rfl⟩
      | long hb => exact .inr ⟨_, rfl, if_pos ⟨hb, rfl⟩⟩
    | fractional => exact .inl ⟨rfl, rfl⟩
    | float hb =>
      refine .inr ⟨_, rfl, ?_⟩
      rcases hb with rfl | rfl <;> rfl
    | double hb =>
      refine .inr ⟨_, rfl, ?_⟩
      rcases hb with rfl | rfl <;> rfl
  · rintro (⟨rfl, rfl⟩ | ⟨b, rfl, h⟩)
    · cases fractional with
      | false => exact .integer .absent
      | true => exact .fractional
    · unfold suffixKind at h
      split at h
      · next hb =>
        cases h
        obtain rfl : fractional = false := by simpa using hb.2
        exact .integer (.long hb.1)
      split at h
      · next hb =>
        cases h
        exact .float hb
      split at h
      · next hb =>
        cases h
        exact .double hb
      · cases h

/-- The letter behind a number is its suffix, if that makes it one of some kind. -/
theorem longest_suffix {fractional : Bool} {b : UInt8} {rest : Bytes} {kind : TokenKind}
    (h : suffixKind fractional b = some kind) :
    Phrase.Longest (Suffix fractional) [b] rest kind where
  mem := suffix_iff.mpr (.inr ⟨b, rfl, h⟩)
  best {other tail x} hsplit hother := by
    rcases suffix_iff.mp hother with ⟨rfl, -⟩ | ⟨b', rfl, h'⟩
    · exact .inl Nat.one_pos
    · obtain ⟨rfl, -⟩ := List.cons.inj hsplit
      exact .inr ⟨rfl, Option.some.inj (h'.symm.trans h)⟩

theorem longest_noSuffix {fractional : Bool} {bytes : Bytes}
    (h : bytes.head?.bind (suffixKind fractional) = none) :
    Phrase.Longest (Suffix fractional) [] bytes
      (if fractional then .doubleLiteral else .integerLiteral) where
  mem := suffix_iff.mpr (.inl ⟨rfl, rfl⟩)
  best {other tail x} hsplit hother := by
    rcases suffix_iff.mp hother with hnone | ⟨b, rfl, hb⟩
    · exact .inr hnone
    · have hnone : suffixKind fractional b = none := by
        rw [← List.nil_append bytes, ← hsplit] at h
        exact h
      cases hb.symm.trans hnone

/-- The word is taken for a token, unless a byte that clashes with it comes next. -/
structure Verdict (clashes : UInt8 → Prop) (word after : Bytes) (kind : TokenKind)
    (reading : Reading) : Prop where
  token : (∀ b, after.head? = some b → ¬ clashes b) → reading = .token kind word.length
  fault : (∃ b, after.head? = some b ∧ clashes b) → ∃ n, reading = malformed (word ++ after) n

theorem close_verdict (kind : TokenKind) (clashes : UInt8 → Bool) (word after : Bytes) :
    Verdict (clashes · = true) word after kind
      (close kind word.length clashes (word ++ after)) := by
  unfold close
  rw [List.drop_left]
  refine ⟨fun h => if_neg ?_, fun h => ⟨_, if_pos ((Option.any_eq_true _ _).mpr h)⟩⟩
  rw [Option.any_eq_true]
  exact fun ⟨b, hb, hclash⟩ => h b hb hclash

theorem start_of_suffix {fractional : Bool} {b : UInt8} {w : Bytes} {kind : TokenKind}
    (h : Suffix fractional (b :: w) kind) :
    b ∈ [of 'l', of 'L', of 'f', of 'F', of 'd', of 'D'] := by
  cases h with
  | integer h =>
    cases h with
    | long hb => rcases hb with rfl | rfl <;> decide
  | float hb => rcases hb with rfl | rfl <;> decide
  | double hb => rcases hb with rfl | rfl <;> decide

/-- No letter of a suffix stands in the number before it. -/
theorem suffix_apart : ∀ b ∈ [of 'l', of 'L', of 'f', of 'F', of 'd', of 'D'],
    inDigits b = false ∧ b ≠ of '.' ∧ ¬ (b = of 'e' ∨ b = of 'E') ∧
      ¬ (b = of '+' ∨ b = of '-') := by
  decide +kernel

theorem start_of_exponent {fractional f : Bool} {b : UInt8} {w : Bytes}
    (h : Exponent fractional (b :: w) f) : inDigits b = false ∧ b ≠ of '.' := by
  cases h with
  | power hmark => rcases hmark with rfl | rfl <;> decide

theorem Fraction.all {word : Bytes} {fractional : Bool} (h : Fraction word fractional) :
    ∀ b ∈ word, b = of '.' ∨ inDigits b = true := by
  cases h with
  | absent => simp
  | point h => exact List.forall_mem_cons.mpr ⟨.inl rfl, fun b hb => .inr (h.all b hb)⟩

theorem Exponent.all {word : Bytes} {fractional f : Bool} (h : Exponent fractional word f) :
    ∀ b ∈ word, (b = of 'e' ∨ b = of 'E') ∨ (b = of '+' ∨ b = of '-') ∨ inDigits b = true := by
  cases h with
  | absent => simp
  | power hmark hsign _ hdigits =>
    refine List.forall_mem_cons.mpr ⟨.inl hmark, fun b hb => ?_⟩
    rcases List.mem_append.mp hb with hb | hb
    · cases hsign with
      | absent => cases hb
      | mark hs => exact .inr (.inl (List.mem_singleton.mp hb ▸ hs))
    · exact .inr (.inr (hdigits b hb))

section Parts
variable {whole fraction exponent suffix after : Bytes} {fractional f : Bool} {kind : TokenKind}

/-- The parts of a decimal number can be told apart by the bytes they start with. -/
theorem longest_parts
    (hwhole : Phrase.Longest Digits whole (fraction ++ (exponent ++ (suffix ++ after))) ())
    (hfraction : Phrase.Longest Fraction fraction (exponent ++ (suffix ++ after)) fractional)
    (hexponent : Phrase.Longest (Exponent fractional) exponent (suffix ++ after) f)
    (hsuffix : Phrase.Longest (Suffix f) suffix after kind) :
    Decimal.Longest (whole ++ (fraction ++ (exponent ++ suffix))) after kind := by
  have hlast :
      Phrase.Longest (Phrase.andThen (Exponent fractional) Suffix) (exponent ++ suffix) after
      kind := by
    refine hexponent.andThen hsuffix fun {f c w kind} h hc => ?_
    obtain ⟨hdigits, -, hmark, hsign⟩ := suffix_apart c (start_of_suffix h)
    rcases hexponent.mem.all c hc with hc | hc | hc
    · exact hmark hc
    · exact hsign hc
    · exact absurd hc (by simp [hdigits])
  have hstart {f : Bool} {c : UInt8} {w : Bytes} {kind : TokenKind}
      (h : Phrase.andThen (Exponent f) Suffix (c :: w) kind) : inDigits c = false ∧ c ≠ of '.' := by
    rcases Phrase.start_of_andThen h with ⟨w, f', h⟩ | ⟨f', h⟩
    · exact start_of_exponent h
    · obtain ⟨hdigits, hpoint, -⟩ := suffix_apart c (start_of_suffix h)
      exact ⟨hdigits, hpoint⟩
  rw [← List.append_assoc exponent] at hwhole hfraction
  have hmiddle : Phrase.Longest (Phrase.andThen Fraction fun fractional =>
      Phrase.andThen (Exponent fractional) Suffix)
      (fraction ++ (exponent ++ suffix)) after kind := by
    refine hfraction.andThen hlast fun {f c w kind} h hc => ?_
    obtain ⟨hdigits, hpoint⟩ := hstart h
    rcases hfraction.mem.all c hc with hc | hc
    · exact hpoint hc
    · exact absurd hc (by simp [hdigits])
  rw [← List.append_assoc fraction] at hwhole
  refine hwhole.andThen hmiddle fun {_ c w kind} h hc => ?_
  have hdigits : inDigits c = false := by
    rcases Phrase.start_of_andThen h with ⟨w, f', h⟩ | ⟨f', h⟩
    · cases h
      decide
    · exact (hstart h).1
  exact absurd (hwhole.mem.all c hc) (by simp [hdigits])

end Parts

theorem longest_decimal {d : UInt8} (hd : isDigit d = true) (rest : Bytes) :
    ∃ word after kind, d :: rest = word ++ after ∧ Decimal.Longest word after kind ∧
      Verdict (decimal.inWordOrDigits · = true) word after kind (decimal (d :: rest)) := by
  obtain ⟨whole, after, heq, hwhole, hlongest⟩ := longest_digits hd rest
  obtain ⟨fraction, after, rfl, hfraction, hlongest'⟩ := longest_fraction after
  have hexponent := longest_exponent (decide (0 < fraction.length)) after
  unfold decimal
  dsimp only
  rw [hwhole, heq, List.drop_left, hfraction, ← List.append_assoc, ← List.length_append,
    List.drop_left]
  rcases hexponent with ⟨exponent, after, rfl, hexponent, hlongest''⟩ |
    ⟨n, mark, rest, hexponent, rfl, hmark, hlongest''⟩
  · have hfractional : (decide (0 < fraction.length) || decide (0 < exponent.length)) =
        decide (0 < fraction.length + exponent.length) := by
      rw [← Bool.decide_or]
      exact decide_eq_decide.mpr (by omega)
    rw [hfractional] at hlongest''
    rw [hexponent, ← List.append_assoc]
    dsimp only
    rw [← List.length_append, List.drop_left]
    split
    · next kind hsuffix =>
      obtain ⟨b, hb, hkind⟩ := Option.bind_eq_some_iff.mp hsuffix
      obtain ⟨rest, rfl⟩ := List.head?_eq_some_iff.mp hb
      refine ⟨whole ++ (fraction ++ (exponent ++ [b])), rest, kind, by simp,
        longest_parts hlongest hlongest' hlongest'' (longest_suffix hkind), ?_⟩
      have hverdict := close_verdict kind decimal.inWordOrDigits
        (whole ++ fraction ++ exponent ++ [b]) rest
      simpa [Nat.add_assoc] using hverdict
    · next hsuffix =>
      refine ⟨whole ++ (fraction ++ (exponent ++ [])), after, _, by simp,
        longest_parts hlongest hlongest' hlongest'' (longest_noSuffix hsuffix), ?_⟩
      rw [List.append_nil, ← List.append_assoc]
      exact close_verdict _ _ _ _
  · -- A mark without digits clashes, as it is a letter.
    have hsuffix (fractional : Bool) :
        (mark :: rest).head?.bind (suffixKind fractional) = none := by
      rcases hmark with rfl | rfl <;> cases fractional <;> rfl
    have hclash : decimal.inWordOrDigits mark = true := by
      rcases hmark with rfl | rfl <;> rfl
    rw [hexponent]
    dsimp only
    refine ⟨whole ++ (fraction ++ ([] ++ [])), mark :: rest, _, by simp,
      longest_parts hlongest hlongest' hlongest'' (longest_noSuffix (hsuffix _)), ?_⟩
    rw [List.append_nil, List.append_nil]
    exact ⟨fun h => absurd hclash (h mark rfl), fun _ => ⟨_, rfl⟩⟩

/-- No byte of a decimal number is the mark of a hexadecimal one. -/
theorem Decimal.not_mem {word : Bytes} {kind : TokenKind} (h : Decimal word kind) {b : UInt8}
    (hb : b = of 'x' ∨ b = of 'X') : b ∉ word := by
  obtain ⟨whole, ⟨⟩, -, rfl, hwhole, fraction, f, -, rfl, hfraction, exponent, f', suffix, rfl,
    hexponent, hsuffix⟩ := h
  obtain ⟨hdigits, hpoint, hmark, hsign, hletter⟩ : inDigits b = false ∧ b ≠ of '.' ∧
      ¬ (b = of 'e' ∨ b = of 'E') ∧ ¬ (b = of '+' ∨ b = of '-') ∧
        b ∉ [of 'l', of 'L', of 'f', of 'F', of 'd', of 'D'] := by
    rcases hb with rfl | rfl <;> decide
  have hnot : ¬ inDigits b = true := by simp [hdigits]
  simp only [List.mem_append, not_or]
  refine ⟨fun h => hnot (hwhole.all b h), fun h => (hfraction.all b h).elim hpoint hnot,
    fun h => ?_, fun h => ?_⟩
  · rcases hexponent.all b h with h | h | h
    · exact hmark h
    · exact hsign h
    · exact hnot h
  · rcases suffix_iff.mp hsuffix with ⟨rfl, -⟩ | ⟨c, rfl, -⟩
    · cases h
    · obtain rfl := List.mem_singleton.mp h
      exact hletter (start_of_suffix hsuffix)

theorem longest_integerSuffix (bytes : Bytes) : ∃ word after kind, bytes = word ++ after ∧
    Phrase.Longest IntegerSuffix word after kind ∧
      ((bytes.head?.any fun b => b == of 'l' || b == of 'L') = true ∧ word.length = 1 ∧
          kind = .longLiteral ∨
        ¬ (bytes.head?.any fun b => b == of 'l' || b == of 'L') = true ∧ word = [] ∧
          kind = .integerLiteral) := by
  by_cases h : ∃ b rest, bytes = b :: rest ∧ (b = of 'l' ∨ b = of 'L')
  · obtain ⟨b, rest, rfl, hb⟩ := h
    refine ⟨[b], rest, .longLiteral, rfl, ⟨.long hb, fun {other tail x} hsplit hother => ?_⟩,
      .inl ⟨by simpa using hb, rfl, rfl⟩⟩
    cases hother with
    | absent => exact .inl Nat.one_pos
    | long => exact .inr ⟨congrArg (· :: []) (List.cons.inj hsplit).1, rfl⟩
  · refine ⟨[], bytes, .integerLiteral, rfl, ⟨.absent, fun {other tail x} hsplit hother => ?_⟩,
      .inr ⟨fun hany => ?_, rfl, rfl⟩⟩
    · cases hother with
      | absent => exact .inr ⟨rfl, rfl⟩
      | long hb => exact absurd ⟨_, tail, hsplit.symm, hb⟩ h
    · cases bytes with
      | nil => cases hany
      | cons b rest => exact h ⟨b, rest, rfl, by simpa using hany⟩

theorem not_mem_hexDigits {word : Bytes} (h : HexDigits word ()) {b : UInt8}
    (hb : b = of 'l' ∨ b = of 'L') : b ∉ word := by
  cases h with
  | @intro x digits hx hne hdigits =>
    have hnot : inHexDigits b = false ∧ b ≠ of '0' ∧ ¬ (b = of 'x' ∨ b = of 'X') := by
      rcases hb with rfl | rfl <;> decide
    simp only [List.mem_cons, not_or]
    refine ⟨hnot.2.1, fun heq => hnot.2.2 (heq ▸ hx), fun hmem => ?_⟩
    exact absurd (hdigits b hmem) (by simp [hnot.1])

theorem longest_hexDigits {x : UInt8} {digits after : Bytes} (hx : x = of 'x' ∨ x = of 'X')
    (hne : digits ≠ []) (hdigits : ∀ b ∈ digits, inHexDigits b = true)
    (hafter : ∀ b, after.head? = some b → inHexDigits b = false) :
    Phrase.Longest HexDigits (of '0' :: x :: digits) after () where
  mem := .intro hx hne hdigits
  best {other tail _} hsplit hother := by
    cases hother with
    | intro hx' hne' hdigits' =>
      simp only [List.cons_append, List.cons.injEq, true_and] at hsplit
      obtain ⟨rfl, heq⟩ := hsplit
      rcases length_lt_or_eq_of_run hafter hdigits' heq with hlt | rfl
      · exact .inl (Nat.succ_lt_succ (Nat.succ_lt_succ hlt))
      · exact .inr ⟨rfl, rfl⟩

/-- A mark and digits make up a hexadecimal number. A mark without digits does not. -/
theorem longest_hexadecimal {x : UInt8} (hx : x = of 'x' ∨ x = of 'X') (rest : Bytes) :
    (∃ word after kind, of '0' :: x :: rest = word ++ after ∧ Hexadecimal.Longest word after kind ∧
      1 < word.length ∧
      Verdict (isAlphanumeric · = true) word after kind (hexadecimal (of '0' :: x :: rest))) ∨
    hexadecimal (of '0' :: x :: rest) = malformed (of '0' :: x :: rest) 2 ∧
      ∀ {other tail : Bytes} {kind}, other ++ tail = of '0' :: x :: rest →
        ¬ Hexadecimal other kind := by
  obtain ⟨digits, after, rfl, hrun, hdigits, hafter⟩ := Bytes.run_split inHexDigits rest
  by_cases hne : digits = []
  · subst hne
    refine .inr ⟨?_, fun {other tail kind} hsplit hother => ?_⟩
    · unfold hexadecimal
      exact if_pos hrun
    · obtain ⟨head, ⟨⟩, suffix, rfl, hhead, -⟩ := hother
      cases hhead with
      | intro _ hne' hdigits' =>
        simp only [List.cons_append, List.cons.injEq, List.append_assoc, List.nil_append, true_and]
          at hsplit
        obtain ⟨b, bs, rfl⟩ := List.exists_cons_of_ne_nil hne'
        have hin := hdigits' b List.mem_cons_self
        rw [hafter b (by rw [← hsplit.2]; rfl)] at hin
        cases hin
  · left
    have hhead := longest_hexDigits hx hne hdigits hafter
    obtain ⟨suffix, after, kind, rfl, hsuffix, hkind⟩ := longest_integerSuffix after
    have hlength : (of '0' :: x :: digits).length = 2 + digits.length := by
      rw [List.length_cons, List.length_cons]
      omega
    refine ⟨of '0' :: x :: digits ++ suffix, after, kind, by simp,
      hhead.andThen hsuffix fun {_ c w kind} h hc => ?_, ?_, ?_⟩
    · cases h with
      | long hb => exact not_mem_hexDigits hhead.mem hb hc
    · rw [List.length_append]
      omega
    · have hbytes : of '0' :: x :: (digits ++ (suffix ++ after)) =
          of '0' :: x :: digits ++ (suffix ++ after) := rfl
      unfold hexadecimal
      dsimp only
      rw [List.drop_succ_cons, List.drop_succ_cons, List.drop_zero, hrun,
        if_neg (by simpa using hne), hbytes, ← hlength, List.drop_left, ← List.append_assoc]
      rcases hkind with ⟨hany, hone, rfl⟩ | ⟨hany, rfl, rfl⟩
      · rw [if_pos hany, ← hone, ← List.length_append]
        exact close_verdict _ _ _ _
      · rw [if_neg hany, List.append_nil]
        exact close_verdict _ _ _ _

/-- What follows a literal clashes with it if it could go on a word. An underscore does not where
the literal is hexadecimal. -/
def Clashes (word : Bytes) (kind : TokenKind) (b : UInt8) : Prop :=
  isAlphanumeric b = true ∨ b = of '_' ∧ ¬ Hexadecimal word kind

theorem Hexadecimal.exists_mark {word : Bytes} {kind : TokenKind} (h : Hexadecimal word kind) :
    ∃ x rest, word = of '0' :: x :: rest ∧ (x = of 'x' ∨ x = of 'X') := by
  obtain ⟨head, ⟨⟩, suffix, rfl, hhead, -⟩ := h
  cases hhead with
  | intro hx => exact ⟨_, _, rfl, hx⟩

theorem Decimal.not_hexadecimal {word : Bytes} {kind kind' : TokenKind} (h : Decimal word kind) :
    ¬ Hexadecimal word kind' := by
  intro h'
  obtain ⟨x, rest, rfl, hx⟩ := h'.exists_mark
  exact h.not_mem hx (List.mem_cons_of_mem _ List.mem_cons_self)

/-- A decimal number ends in front of a hexadecimal mark. -/
theorem Decimal.eq_zero {word after rest : Bytes} {kind : TokenKind} {x : UInt8}
    (h : Decimal word kind) (hx : x = of 'x' ∨ x = of 'X')
    (heq : word ++ after = of '0' :: x :: rest) : word = [of '0'] ∧ after = x :: rest := by
  match word with
  | [] =>
    obtain ⟨whole, ⟨⟩, rest', hword, hwhole, -⟩ := h
    cases hwhole
    cases hword
  | [c] =>
    obtain ⟨rfl, rfl⟩ := List.cons.inj heq
    exact ⟨rfl, rfl⟩
  | c :: c' :: word =>
    obtain ⟨rfl, -⟩ := List.cons.inj (List.cons.inj heq).2
    exact absurd (List.mem_cons_of_mem _ List.mem_cons_self) (h.not_mem hx)

theorem Verdict.congr {clashes clashes' : UInt8 → Prop} {word after : Bytes} {kind : TokenKind}
    {reading : Reading} (h : Verdict clashes word after kind reading)
    (heq : ∀ b, clashes' b ↔ clashes b) : Verdict clashes' word after kind reading := by
  obtain rfl : clashes' = clashes := funext fun b => propext (heq b)
  exact h

/-- What is read where a digit stands is the longest literal there, or a fault. -/
theorem longest_read {d : UInt8} (hd : isDigit d = true) (rest : Bytes) :
    ∃ word after kind, d :: rest = word ++ after ∧ Literal.Longest word after kind ∧
      Verdict (Clashes word kind) word after kind (read (d :: rest)) := by
  obtain ⟨word, after, kind, heq, hlongest, hverdict⟩ := longest_decimal hd rest
  have hclash (b : UInt8) : Clashes word kind b ↔ decimal.inWordOrDigits b = true := by
    simp [Clashes, decimal.inWordOrDigits, hlongest.mem.not_hexadecimal]
  by_cases hmark : ∃ x rest', d :: rest = of '0' :: x :: rest' ∧ (x = of 'x' ∨ x = of 'X')
  · obtain ⟨x, rest, hbytes, hx⟩ := hmark
    obtain ⟨rfl, rfl⟩ := List.cons.inj hbytes
    have hread : read (of '0' :: x :: rest) = hexadecimal (of '0' :: x :: rest) := if_pos ⟨rfl, hx⟩
    obtain ⟨rfl, rfl⟩ := hlongest.mem.eq_zero hx heq.symm
    rw [hread]
    rcases longest_hexadecimal hx rest with ⟨word, after, kind, heq, hlongest, hlength, hverdict⟩ |
      ⟨hfault, hnone⟩
    · refine ⟨word, after, kind, heq, ⟨.inr hlongest.mem, ?_⟩, hverdict.congr ?_⟩
      · rintro other tail kind' hsplit (hother | hother)
        · obtain ⟨rfl, -⟩ := hother.eq_zero hx (hsplit.trans heq.symm)
          exact .inl hlength
        · exact hlongest.best hsplit hother
      · simp [Clashes, hlongest.mem]
    · refine ⟨_, _, kind, heq, ⟨.inl hlongest.mem, ?_⟩, ?_⟩
      · rintro other tail kind' hsplit (hother | hother)
        · exact hlongest.best hsplit hother
        · exact absurd hother (hnone hsplit)
      · rw [hfault]
        have hx' : isAlphanumeric x = true := by
          rcases hx with rfl | rfl <;> rfl
        exact ⟨fun h => absurd (.inl hx') (h x rfl), fun _ => ⟨2, rfl⟩⟩
  · have hread : read (d :: rest) = decimal (d :: rest) := by
      unfold read
      split
      · next zero x rest' hbytes =>
        exact if_neg fun ⟨hz, hx⟩ => hmark ⟨x, rest', by rw [hbytes, hz], hx⟩
      · rfl
    refine ⟨word, after, kind, heq, ⟨.inl hlongest.mem, ?_⟩, hread ▸ hverdict.congr hclash⟩
    rintro other tail kind' hsplit (hother | hother)
    · exact hlongest.best hsplit hother
    · obtain ⟨x, rest', rfl, hx⟩ := hother.exists_mark
      exact absurd ⟨x, rest' ++ tail, heq.trans hsplit.symm, hx⟩ hmark

/-- What is read as a number is a literal, and no longer one stands there. -/
theorem longest_of_read {d : UInt8} {rest : Bytes} {kind : TokenKind} {n : Nat}
    (hd : isDigit d = true) (h : read (d :: rest) = .token kind n) :
    Literal.Longest ((d :: rest).take n) ((d :: rest).drop n) kind := by
  obtain ⟨word, after, kind', heq, hlongest, hverdict⟩ := longest_read hd rest
  have hfree (b : UInt8) (hb : after.head? = some b) : ¬ Clashes word kind' b := by
    intro hclash
    obtain ⟨m, hm⟩ := hverdict.fault ⟨b, hb, hclash⟩
    cases h.symm.trans hm
  cases h.symm.trans (hverdict.token hfree)
  rw [heq, List.take_left, List.drop_left]
  exact hlongest

end Number

theorem Lexeme.read_of_isDigit {d : UInt8} (hd : Byte.isDigit d = true) (rest : Bytes) :
    read d rest = Number.read (d :: rest) := by
  refine read_eq_iff.mpr (.number ⟨?_, ?_⟩ hd rfl) <;> rintro rfl <;> revert hd <;> decide

theorem Trivia.clear_of_isDigit {d : UInt8} (hd : Byte.isDigit d = true) (rest : Bytes) :
    Clear (d :: rest) := by
  refine clear_cons (Bool.eq_false_iff.mpr fun hb => ?_) (fun hslash => ?_) rest
  · have hnot := Byte.forall_isBlank (P := fun b => Byte.isDigit b = false) (by decide) d hb
    cases hd.symm.trans hnot
  · subst hslash
    revert hd
    decide

namespace Scanner
open Number Trivia

/-- Where a digit stands, the scanner finds the longest number literal there, or a malformed number
if what follows clashes with that literal. The source has less than 4 GiB, and so the offsets in the
answer have 32 bits. -/
theorem next_at_digit {text : String} {s : Scanner} {d : UInt8}
    (hsize : (Bytes.ofText text).length < Nat.pow 2 32) (hsource : s.source = Bytes.ofText text)
    (hd : (Bytes.ofText text)[s.position]? = some d) (hdigit : Byte.isDigit d = true) :
    (∃ word after kind, (Bytes.ofText text).drop s.position = word ++ after ∧
      Literal.Longest word after kind) ∧
    ∀ word after kind, (Bytes.ofText text).drop s.position = word ++ after →
      Literal.Longest word after kind →
        ((∀ b, after.head? = some b → ¬ Clashes word kind b) → s.next.1 = .ok kind ∧
          Span.FitsWords ⟨s.position, s.position + word.length⟩ ∧
          ∃ found, Bytes.ofText found = word ∧ s.next.2.token kind =
            ⟨kind, ⟨s.position, s.position + word.length⟩, found, .source⟩) ∧
        ((∃ b, after.head? = some b ∧ Clashes word kind b) → s.position < Nat.pow 2 32 ∧
          ∃ found, s.next.1 = .error (.lexical ⟨.malformedNumber found, s.position⟩)) := by
  obtain ⟨hlt, rfl⟩ := List.getElem?_eq_some_iff.mp hd
  have hdrop := List.drop_eq_getElem_cons hlt
  have hrest : s.place.rest = _ := (place_rest hsource).trans hdrop
  generalize (Bytes.ofText text)[s.position] = d at hdigit hdrop hrest
  generalize (Bytes.ofText text).drop (s.position + 1) = rest at hdrop hrest
  obtain ⟨word, after, kind, heq, hlongest, hverdict⟩ := longest_read hdigit rest
  refine ⟨⟨word, after, kind, hdrop.trans heq, hlongest⟩,
    fun word' after' kind' heq' hlongest' => ?_⟩
  obtain ⟨rfl, rfl⟩ := hlongest.unique hlongest' (heq'.symm.trans (hdrop.trans heq))
  obtain rfl := List.append_cancel_left (heq'.symm.trans (hdrop.trans heq))
  have hclear := clear_of_isDigit hdigit rest
  have hread : Lexeme.read d rest = read (d :: rest) := Lexeme.read_of_isDigit hdigit rest
  refine ⟨fun hfree => ?_, fun hclash => ?_⟩
  · have hreads : Lexeme.Reads kind' word' after' :=
      ⟨d, rest, heq.symm, hread.trans (hverdict.token hfree)⟩
    obtain ⟨hkind, htoken⟩ := token_of_reads hsource (hrest.trans heq) (heq ▸ hclear) hreads
    exact ⟨hkind, .of_drop hsize heq' hreads.ne_nil, htoken⟩
  · obtain ⟨n, hn⟩ := hverdict.fault hclash
    have hnext := next_of_clear hrest hclear
    rw [hread, hn] at hnext
    exact ⟨Nat.lt_trans hlt hsize, _, congrArg Prod.fst hnext⟩

theorem next_at_digit_floatExponent :
    let s := (ofText "(1_0.5E-3f)").seek 1
    (Bytes.ofText "(1_0.5E-3f)").length < Nat.pow 2 32 ∧
      (Bytes.ofText "(1_0.5E-3f)")[s.position]? = some (Byte.of '1') ∧
      Literal.Longest (Bytes.ofText "1_0.5E-3f") (Bytes.ofText ")") .floatingPointLiteral ∧
      s.next.1 = .ok .floatingPointLiteral := by
  intro s
  have hsize : (Bytes.ofText "(1_0.5E-3f)").length < Nat.pow 2 32 := by decide +kernel
  have hd : (Bytes.ofText "(1_0.5E-3f)")[s.position]? = some (Byte.of '1') := by decide +kernel
  have hsplit : (Bytes.ofText "(1_0.5E-3f)").drop s.position =
      Bytes.ofText "1_0.5E-3f" ++ Bytes.ofText ")" := by decide +kernel
  have hlongest := @longest_of_read (Byte.of '1') (Bytes.ofText "_0.5E-3f)") .floatingPointLiteral 9
    (by decide) (by decide +kernel)
  obtain ⟨-, hnext⟩ := next_at_digit (s := s) hsize rfl hd (by decide)
  have hfree (b : UInt8) (hb : (Bytes.ofText ")").head? = some b) :
      ¬ Clashes (Bytes.ofText "1_0.5E-3f") .floatingPointLiteral b := by
    cases hb
    rintro (hb | ⟨hb, -⟩) <;> revert hb <;> decide
  exact ⟨hsize, hd, hlongest, ((hnext _ _ _ hsplit hlongest).1 hfree).1⟩

/-- Behind a long hexadecimal literal an underscore starts a word of its own. -/
theorem longLiteral_underscore :
    Literal.Longest (Bytes.ofText "0x1L") (Bytes.ofText "_") .longLiteral ∧
      Bytes.ofText "0x1L_" = Bytes.ofText "0x1L" ++ Bytes.ofText "_" ∧
      (ofText "0x1L_").next.1 = .ok .longLiteral := by
  have hlongest := @longest_of_read (Byte.of '0') (Bytes.ofText "x1L_") .longLiteral 4 (by decide)
    (by decide +kernel)
  exact ⟨hlongest, by decide +kernel, by decide +kernel⟩

end Scanner
end SyntaxRecovery
