import Mathlib.Data.List.TakeWhile
import SyntaxRecovery.Json.Token
import SyntaxRecovery.Json.Writer

/-! What the lexer makes of written JSON. Texts, numbers and marks come out as the symbols they were
written for, whatever stands before them. -/
namespace SyntaxRecovery.Json
variable {written text : String} {symbols : List Symbol} {symbol : Symbol} {value : Json}
  {lexer lexer' : Lexer} {found : List Symbol} {part : Partial}

namespace Number

theorem le_ofDigitChars (digits : List Char) (init : Nat) :
    init ≤ Nat.ofDigitChars 10 digits init := by
  rw [Nat.ofDigitChars_eq_ofDigitChars_zero]
  exact Nat.le_add_right_of_le (Nat.le_mul_of_pos_left init (Nat.pow_pos (by decide)))

/-- Where 64 bits suffice for all digits, none is left over. -/
theorem significand_eq {digits : List Char} {init : Nat}
    (h : Nat.ofDigitChars 10 digits init < Nat.pow 2 64) :
    significand init digits = (Nat.ofDigitChars 10 digits init, 0) := by
  induction digits generalizing init with
  | nil => rfl
  | cons digit digits ih =>
    rw [Nat.ofDigitChars_cons] at h ⊢
    have hlonger : 10 * init + digitValue digit < Nat.pow 2 64 :=
      Nat.lt_of_le_of_lt (le_ofDigitChars digits _) h
    rw [significand, if_pos hlonger]
    exact ih h

/-- Numbers are written without superfluous zeros. -/
theorem head?_toDigits_ne_zero {n : Nat} (hn : 0 < n) : (Nat.toDigits 10 n).head? ≠ some '0' := by
  induction n using Nat.strongRecOn with
  | ind n ih =>
    by_cases hlt : n < 10
    · rw [Nat.toDigits_of_lt_base hlt]
      have hdigit : ∀ m < 10, 0 < m → m.digitChar ≠ '0' := by decide
      simpa using hdigit n hlt hn
    · have hle : 10 ≤ n := Nat.le_of_not_lt hlt
      have hquot : 0 < n / 10 := Nat.div_pos hle (by decide)
      have hhead := ih (n / 10) (Nat.div_lt_self hn (by decide)) hquot
      rw [Nat.toDigits_of_base_le (by decide) hle]
      cases hdigits : Nat.toDigits 10 (n / 10) with
      | nil => exact absurd hdigits Nat.toDigits_ne_nil
      | cons c rest =>
        rw [hdigits] at hhead
        exact hhead

theorem isDigit_toDigits (n : Nat) : ∀ c ∈ Nat.toDigits 10 n, c.isDigit :=
  fun _ hc => Nat.isDigit_of_mem_toDigits (by decide) (by decide) hc

theorem sign_of_isDigit {mark : Char} {digits : List Char} (hmark : mark.isDigit = false)
    (hdigits : ∀ c ∈ digits, c.isDigit) : sign mark digits = (false, digits) := by
  cases digits with
  | nil => rfl
  | cons c rest =>
    have hc : c.isDigit := hdigits c List.mem_cons_self
    have hne : c ≠ mark := fun heq => by simp [heq, hmark] at hc
    simp [sign, hne]

theorem parts?_toDigits (n : Nat) : parts? (Nat.toDigits 10 n) =
    some { negative := false, whole := Nat.toDigits 10 n, fraction := none, exponent := none } := by
  have hdigits := isDigit_toDigits n
  have htake : (Nat.toDigits 10 n).takeWhile (·.isDigit) = Nat.toDigits 10 n :=
    List.takeWhile_eq_self_iff.mpr hdigits
  have hdrop : (Nat.toDigits 10 n).dropWhile (·.isDigit) = [] :=
    List.dropWhile_eq_nil_iff.mpr hdigits
  have hzero : ¬ ((Nat.toDigits 10 n).head? = some '0' ∧ (Nat.toDigits 10 n).length ≠ 1) := by
    rintro ⟨hhead, hlength⟩
    rcases Nat.eq_zero_or_pos n with rfl | hn
    · exact hlength (by decide)
    · exact head?_toDigits_ne_zero hn hhead
  have hempty : ¬ (Nat.toDigits 10 n).isEmpty := by simp [Nat.toDigits_ne_nil]
  unfold parts?
  rw [sign_of_isDigit (by decide) hdigits]
  simp only [htake, hdrop, hzero, hempty, or_false, sign, exponent?]
  rfl

/-- A natural number of 64 bits is read as it is written. -/
theorem read?_toString {n : Nat} (h : n < Nat.pow 2 64) : read? (toString n) = some (.int n) := by
  have hvalue : Nat.ofDigitChars 10 (Nat.toDigits 10 n) 0 = n := Nat.ofDigitChars_ten_toDigits
  have hsignificand : significand 0 (Nat.toDigits 10 n) = (n, 0) := by
    rw [significand_eq (by rw [hvalue]; exact h), hvalue]
  rw [read?, Nat.toString_eq_ofList_toDigits, String.toList_ofList, parts?_toDigits]
  simp [ofParts, hsignificand]

end Number

namespace Lexer

/-- The lexer stands behind the symbols found, the latest first, or in a word that is the last of
them. -/
inductive Settles : Lexer → List Symbol → Prop
  | outside (found : List Symbol) : Settles ⟨.between, found⟩ found
  | word {word : String} {value : Json} (h : wordValue? word = some value) (found : List Symbol) :
    Settles ⟨.inWord word, found⟩ (.word value :: found)

/-- A character that belongs to no word ends the word. -/
theorem Settles.step_eq (h : lexer.Settles found) {c : Char} (hc : inWord c = false) :
    lexer.step c = Lexer.between ⟨.between, found⟩ c := by
  cases h with
  | outside => rfl
  | word hword => simp [step, hc, hword, emit]

theorem Settles.finish_eq (h : lexer.Settles found) : lexer.finish = some found.reverse := by
  cases h with
  | outside => rfl
  | word hword => simp [finish, hword, emit]

/-- The characters of a word stay together. -/
theorem foldlM_inWord {word : String} {cs : List Char} (hcs : ∀ c ∈ cs, inWord c) :
    cs.foldlM step ⟨.inWord word, found⟩ = some ⟨.inWord (word ++ String.ofList cs), found⟩ := by
  induction cs generalizing word with
  | nil => simp
  | cons c cs ih =>
    have hc := hcs c List.mem_cons_self
    have hstep : step ⟨.inWord word, found⟩ c = some ⟨.inWord (word.push c), found⟩ := by
      simp [step, hc]
    rw [List.foldlM_cons, hstep, Option.bind_eq_bind, Option.bind_some,
      ih fun other ho => hcs other (List.mem_cons_of_mem _ ho)]
    simp [String.ext_iff]

theorem between_of_inWord {c : Char} (hc : inWord c) :
    between ⟨.between, found⟩ c = some ⟨.inWord (String.singleton c), found⟩ := by
  have hblank : ¬ (c = ' ' ∨ c = '\t' ∨ c = '\n' ∨ c = '\r') := by
    rintro (rfl | rfl | rfl | rfl) <;> simp [inWord] at hc
  have hquote : c ≠ '"' := by
    rintro rfl
    simp [inWord] at hc
  simp [between, hblank, hquote, hc]

theorem foldlM_hexDigits : ∀ n < 32, (hexDigits n).toList.foldlM (Numeral.push? 16) 0 = some n ∧
    (hexDigits n).toList.length = 3 + 1 := by
  decide

/-- A Unicode escape is read digit by digit. -/
theorem foldlM_inUnit {digits : List Char} {left unit result : Nat}
    (hleft : digits.length = left + 1)
    (hdigits : digits.foldlM (Numeral.push? 16) unit = some result) :
    digits.foldlM step ⟨.inUnit part (left + 1) unit, found⟩ =
      some ⟨.inString (part.pushUnit result), found⟩ := by
  induction digits generalizing left unit with
  | nil => cases hleft
  | cons c digits ih =>
    rw [List.foldlM_cons, Option.bind_eq_bind, Option.bind_eq_some_iff] at hdigits
    obtain ⟨next, hnext, hdigits⟩ := hdigits
    rw [List.foldlM_cons]
    cases left with
    | zero =>
      obtain rfl : digits = [] := List.eq_nil_of_length_eq_zero (by simpa using hleft)
      obtain rfl : next = result := by simpa using hdigits
      simp [step, hnext]
    | succ left =>
      have hstep : step ⟨.inUnit part (left + 1 + 1) unit, found⟩ c =
          some ⟨.inUnit part (left + 1) next, found⟩ := by
        simp [step, hnext]
      rw [hstep, Option.bind_eq_bind, Option.bind_some]
      exact ih (by simpa using hleft) hdigits

/-- A written character adds itself to the text that is being read. -/
theorem foldlM_writeChar (c : Char) (hhigh : part.high = none) :
    (writeChar c).toList.foldlM step ⟨.inString part, found⟩ =
      some ⟨.inString { part with text := part.text.push c }, found⟩ := by
  have hpush (c : Char) : part.push c = { part with text := part.text.push c } := by
    simp [Partial.push, Partial.settle, hhigh]
  have hescape {letter : Char} (hu : letter ≠ 'u') (h : escapes.lookup letter = some c) :
      ['\\', letter].foldlM step ⟨.inString part, found⟩ =
        some ⟨.inString { part with text := part.text.push c }, found⟩ := by
    simp [step, hu, h, hpush]
  unfold writeChar
  split
  · exact hescape (by decide) (by decide)
  · exact hescape (by decide) (by decide)
  · exact hescape (by decide) (by decide)
  · exact hescape (by decide) (by decide)
  · exact hescape (by decide) (by decide)
  · exact hescape (by decide) (by decide)
  · exact hescape (by decide) (by decide)
  · next hquote hbackslash _ _ _ _ _ =>
    split
    · next hlt =>
      obtain ⟨hdigits, hlength⟩ := foldlM_hexDigits c.toNat hlt
      have hunit : part.pushUnit c.toNat = { part with text := part.text.push c } := by
        have hsmall : ¬ (0xd800 ≤ c.toNat ∧ c.toNat < 0xdc00) ∧
            ¬ (0xdc00 ≤ c.toNat ∧ c.toNat < 0xe000) := by omega
        simp [Partial.pushUnit, hsmall.1, hsmall.2, hpush]
      have hopen : "\\u".toList.foldlM step ⟨.inString part, found⟩ =
          some ⟨.inUnit part (3 + 1) 0, found⟩ := by
        simp [step]
      rw [String.toList_append, List.foldlM_append, hopen, Option.bind_eq_bind, Option.bind_some,
        foldlM_inUnit hlength hdigits, hunit]
    · next hge =>
      have hquote : c ≠ '"' := hquote
      have hbackslash : c ≠ '\\' := hbackslash
      simp [step, hquote, hbackslash, hge, hpush]

theorem toList_foldl_writeChar (cs : List Char) (start : String) :
    (cs.foldl (fun written c => written ++ writeChar c) start).toList =
      start.toList ++ cs.flatMap fun c => (writeChar c).toList := by
  induction cs generalizing start with
  | nil => simp
  | cons c cs ih => simp [ih]

theorem toList_writeString (text : String) : (writeString text).toList =
    '"' :: (text.toList.flatMap fun c => (writeChar c).toList) ++ ['"'] := by
  rw [writeString, String.foldl_eq_foldl_toList, String.toList_append, toList_foldl_writeChar]
  rfl

theorem foldlM_writeChars (cs : List Char) (hhigh : part.high = none) :
    (cs.flatMap fun c => (writeChar c).toList).foldlM step ⟨.inString part, found⟩ =
      some ⟨.inString { part with text := part.text ++ String.ofList cs }, found⟩ := by
  induction cs generalizing part with
  | nil => simp
  | cons c cs ih =>
    have hrest := @ih { part with text := part.text.push c } hhigh
    rw [List.flatMap_cons, List.foldlM_append, foldlM_writeChar c hhigh, Option.bind_eq_bind,
      Option.bind_some, hrest]
    simp [String.ext_iff]

/-- A written text is read as one symbol. -/
theorem foldlM_writeString (h : lexer.Settles found) (text : String) :
    (writeString text).toList.foldlM step lexer = some ⟨.between, .text (some text) :: found⟩ := by
  have hopen : lexer.step '"' = some ⟨.inString {}, found⟩ := by
    rw [h.step_eq (by decide)]
    rfl
  rw [toList_writeString, List.cons_append, List.foldlM_cons, hopen, Option.bind_eq_bind,
    Option.bind_some, List.foldlM_append, foldlM_writeChars _ rfl]
  simp [step, emit, Partial.content, Partial.settle]

end Lexer

/-- The text is made of the symbols, so that the lexer stands behind them. -/
def Ends (written : String) (symbols : List Symbol) : Prop :=
  ∃ lexer, written.toList.foldlM Lexer.step {} = some lexer ∧ lexer.Settles symbols.reverse

/-- The text is made of the symbols and ends in none that more characters might belong to. -/
def Spells (written : String) (symbols : List Symbol) : Prop :=
  written.toList.foldlM Lexer.step {} = some ⟨.between, symbols.reverse⟩

theorem Spells.ends (h : Spells written symbols) : Ends written symbols := ⟨_, h, .outside _⟩

theorem Ends.symbols?_eq (h : Ends written symbols) : symbols? written = some symbols := by
  obtain ⟨lexer, hread, hsettles⟩ := h
  rw [symbols?, hread, Option.bind_some, hsettles.finish_eq, List.reverse_reverse]

theorem spells_empty : Spells "" [] := rfl

/-- A text that starts with no character of a word goes on from where the lexer stands. -/
theorem Ends.append {c : Char} {cs : List Char} {found : List Symbol} (h : Ends written symbols)
    (htext : text.toList = c :: cs) (hc : Lexer.inWord c = false)
    (hread : (Lexer.between ⟨.between, symbols.reverse⟩ c).bind (cs.foldlM Lexer.step) =
      some ⟨.between, found⟩) :
    Spells (written ++ text) found.reverse := by
  obtain ⟨lexer, hlexer, hsettles⟩ := h
  rw [Spells, String.toList_append, List.foldlM_append, hlexer, htext, Option.bind_eq_bind,
    Option.bind_some, List.foldlM_cons, hsettles.step_eq hc, Option.bind_eq_bind, hread,
    List.reverse_reverse]

theorem Ends.string (h : Ends written symbols) (text : String) :
    Spells (written ++ writeString text) (symbols ++ [.text (some text)]) := by
  obtain ⟨lexer, hlexer, hsettles⟩ := h
  rw [Spells, String.toList_append, List.foldlM_append, hlexer, Option.bind_eq_bind,
    Option.bind_some, Lexer.foldlM_writeString hsettles, List.reverse_append]
  rfl

/-- The marks between values. -/
def marks : List (String × Symbol) :=
  [("[", .openArray), ("]", .closeArray), (opened, .openObject), (closed, .closeObject),
   (",", .comma), (":", .colon)]

theorem Ends.mark (h : Ends written symbols) (hmark : (text, symbol) ∈ marks) :
    Spells (written ++ text) (symbols ++ [symbol]) := by
  have hsymbols : symbols ++ [symbol] = (symbol :: symbols.reverse).reverse := by simp
  rw [hsymbols]
  simp only [marks, List.mem_cons, List.not_mem_nil, or_false, Prod.mk.injEq] at hmark
  rcases hmark with ⟨rfl, rfl⟩ | ⟨rfl, rfl⟩ | ⟨rfl, rfl⟩ | ⟨rfl, rfl⟩ | ⟨rfl, rfl⟩ | ⟨rfl, rfl⟩ <;>
    exact h.append rfl (by decide) rfl

theorem Ends.blank (h : Ends written symbols) {c : Char} {cs : List Char}
    (htext : text.toList = c :: cs)
    (hblanks : ∀ c ∈ text.toList, c = ' ' ∨ c = '\n') : Spells (written ++ text) symbols := by
  have hbetween (c : Char) (hc : c = ' ' ∨ c = '\n') (found : List Symbol) :
      Lexer.between ⟨.between, found⟩ c = some ⟨.between, found⟩ := by
    rcases hc with rfl | rfl <;> rfl
  have hrest (cs : List Char) (hcs : ∀ c ∈ cs, c = ' ' ∨ c = '\n') (found : List Symbol) :
      cs.foldlM Lexer.step ⟨.between, found⟩ = some ⟨.between, found⟩ := by
    induction cs with
    | nil => rfl
    | cons c cs ih =>
      have hc : Lexer.step ⟨.between, found⟩ c = some ⟨.between, found⟩ :=
        hbetween c (hcs c List.mem_cons_self) found
      rw [List.foldlM_cons, hc, Option.bind_eq_bind, Option.bind_some]
      exact ih fun other ho => hcs other (List.mem_cons_of_mem _ ho)
  rw [htext] at hblanks
  obtain ⟨hc, hcs⟩ := List.forall_mem_cons.mp hblanks
  have hword : Lexer.inWord c = false := by
    rcases hc with rfl | rfl <;> decide
  have hread := h.append htext hword (by rw [hbetween c hc, Option.bind_some, hrest cs hcs])
  rwa [List.reverse_reverse] at hread

theorem Ends.newLine (h : Ends written symbols) (depth : Nat) :
    Spells (written ++ newLine depth) symbols := by
  have htext : (Json.newLine depth).toList = '\n' :: List.replicate (2 * depth) ' ' := by
    simp [Json.newLine]
  refine h.blank htext fun c hc => ?_
  rw [htext] at hc
  rcases List.mem_cons.mp hc with rfl | hc
  · exact .inr rfl
  · exact .inl (List.eq_of_mem_replicate hc)

/-- A word begins behind a mark or a blank. -/
theorem Spells.word (h : Spells written symbols) {c : Char} {cs : List Char}
    (htext : text.toList = c :: cs) (hword : text.toList.all Lexer.inWord)
    (hvalue : Lexer.wordValue? text = some value) :
    Ends (written ++ text) (symbols ++ [.word value]) := by
  have htail : String.singleton c ++ String.ofList cs = text := by
    simp [String.ext_iff, htext]
  rw [htext, List.all_eq_true] at hword
  obtain ⟨hc, hcs⟩ := List.forall_mem_cons.mp hword
  have hfirst : Lexer.step ⟨.between, symbols.reverse⟩ c =
      some ⟨.inWord (String.singleton c), symbols.reverse⟩ := Lexer.between_of_inWord hc
  refine ⟨⟨.inWord text, symbols.reverse⟩, ?_, ?_⟩
  · rw [String.toList_append, List.foldlM_append, h, Option.bind_eq_bind, Option.bind_some, htext,
      List.foldlM_cons, hfirst, Option.bind_eq_bind, Option.bind_some, Lexer.foldlM_inWord hcs,
      htail]
  · rw [List.reverse_append]
    exact .word hvalue _

end SyntaxRecovery.Json
