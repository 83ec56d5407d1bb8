import SyntaxRecovery.Proofs.Lexical.Tiling

/-! What is read as a token is read so again when a blank follows it, or nothing. -/
namespace SyntaxRecovery
open Byte

/-- Nothing follows, or a blank. -/
def Bytes.Parted (bytes : Bytes) : Prop := ∀ b, bytes.head? = some b → isBlank b = true

theorem Byte.forall_isBlank {P : UInt8 → Prop} (h : P 32 ∧ P 9 ∧ P 10 ∧ P 12 ∧ P 13) (b : UInt8)
    (hb : isBlank b = true) : P b := by
  obtain ⟨h32, h9, h10, h12, h13⟩ := h
  simp only [isBlank, Bool.or_eq_true, beq_iff_eq] at hb
  rcases hb with (((rfl | rfl) | rfl) | rfl) | rfl <;> assumption

namespace Bytes
variable {p : UInt8 → Bool} {word after behind : Bytes}

theorem Parted.head_not (h : Parted behind) (hp : ∀ b, isBlank b = true → p b = false) (b : UInt8)
    (hb : behind.head? = some b) : p b = false := hp b (h b hb)

theorem Parted.not_any (h : Parted behind) (hp : ∀ b, isBlank b = true → p b = false) :
    behind.head?.any p = false := by
  cases hb : behind.head? with
  | none => rfl
  | some b => exact h.head_not hp b hb

/-- A run that ends in front of the last byte of `word` does not see what comes behind. -/
theorem run_append_of_lt (h : run p (word ++ after) < word.length) (behind : Bytes) :
    run p (word ++ behind) = run p (word ++ after) := by
  induction word with
  | nil => exact absurd h (Nat.not_lt_zero _)
  | cons b word ih =>
    by_cases hb : p b = true
    · simp only [run, List.cons_append, List.takeWhile_cons_of_pos hb, List.length_cons] at h ih ⊢
      rw [ih (Nat.lt_of_succ_lt_succ h)]
    · simp only [run, List.cons_append, List.takeWhile_cons_of_neg hb]

/-- A run that ends with `word` ends there too when a blank follows. -/
theorem run_append_of_le (hp : ∀ b, isBlank b = true → p b = false) (hbehind : Parted behind)
    (h : run p (word ++ after) ≤ word.length) : run p (word ++ behind) = run p (word ++ after) := by
  rcases Nat.lt_or_eq_of_le h with hlt | heq
  · exact run_append_of_lt hlt behind
  · obtain ⟨body, rest, hsplit, hbody, hall, -⟩ := run_split p (word ++ after)
    obtain ⟨rfl, -⟩ := List.append_inj hsplit (heq.symm.trans hbody)
    rw [heq, run_append hall (hbehind.head_not hp)]

theorem head?_drop_append {n : Nat} (h : n < word.length) (behind : Bytes) :
    ((word ++ behind).drop n).head? = (word.drop n).head? := by
  rw [List.drop_append_of_le_length (Nat.le_of_lt h), List.head?_append_of_ne_nil]
  simpa using h

end Bytes

namespace Number
variable {word after behind : Bytes}

theorem fractionLength_append (hbehind : Bytes.Parted behind)
    (h : fractionLength (word ++ after) ≤ word.length) :
    fractionLength (word ++ behind) = fractionLength (word ++ after) := by
  have hpoint : ∀ b, isBlank b = true → b ≠ of '.' := forall_isBlank (by decide)
  have hdigit : ∀ b, isBlank b = true → isDigit b = false := forall_isBlank (by decide)
  have hdigits : ∀ b, isBlank b = true → inDigits b = false := forall_isBlank (by decide)
  match word with
  | [] =>
    rw [Nat.le_zero.mp h]
    rcases behind with _ | ⟨b, _ | ⟨c, behind⟩⟩
    · rfl
    · rfl
    · exact if_neg fun h => hpoint b (hbehind b rfl) h.1
  | [a] =>
    have hzero : fractionLength ([a] ++ after) = 0 := by
      rcases after with _ | ⟨b, after⟩
      · rfl
      · simp only [List.cons_append, List.nil_append, fractionLength, List.length_singleton] at h ⊢
        by_cases hc : a = of '.' ∧ isDigit b = true
        · rw [if_pos hc] at h
          have hrun : 0 < Bytes.run inDigits (b :: after) :=
            Bytes.run_pos (by simp [inDigits, hc.2])
          omega
        · exact if_neg hc
    rw [hzero]
    rcases behind with _ | ⟨b, behind⟩
    · rfl
    · exact if_neg fun h => by simp [hdigit b (hbehind b rfl)] at h
  | a :: b :: word =>
    simp only [List.cons_append, fractionLength] at h ⊢
    split
    · next hc =>
      rw [if_pos hc, List.length_cons] at h
      have hrun : Bytes.run inDigits ((b :: word) ++ after) ≤ (b :: word).length := by
        rw [List.cons_append]
        omega
      rw [← List.cons_append, ← List.cons_append, Bytes.run_append_of_le hdigits hbehind hrun]
    · rfl

theorem exponentLength_append {n : Nat} (hbehind : Bytes.Parted behind)
    (h : exponentLength (word ++ after) = .ok n) (hn : n ≤ word.length) :
    exponentLength (word ++ behind) = .ok n := by
  have hmark : ∀ b, isBlank b = true → ¬ (b = of 'e' ∨ b = of 'E') := forall_isBlank (by decide)
  have hdigits : ∀ b, isBlank b = true → inDigits b = false := forall_isBlank (by decide)
  cases word with
  | nil =>
    obtain rfl := Nat.le_zero.mp hn
    cases behind with
    | nil => rfl
    | cons b behind => exact if_neg (hmark b (hbehind b rfl))
  | cons mark word =>
    simp only [List.cons_append, exponentLength] at h ⊢
    split at h
    · next hc =>
      rw [if_pos hc]
      generalize hsign : (if ((word ++ after).head?.any _) = true then 1 else 0) = sign at h
      split at h
      · cases h
      · next hd =>
        cases h
        rw [List.length_cons] at hn
        have hne : word ≠ [] := by
          rintro rfl
          rw [List.length_nil] at hn
          omega
        have hdrop (rest : Bytes) : (word ++ rest).drop sign = word.drop sign ++ rest :=
          List.drop_append_of_le_length (by omega)
        have hrun : Bytes.run inDigits (word.drop sign ++ after) ≤ (word.drop sign).length := by
          rw [← hdrop, List.length_drop]
          omega
        rw [List.head?_append_of_ne_nil _ hne] at hsign ⊢
        rw [hsign, hdrop, Bytes.run_append_of_le hdigits hbehind hrun, ← hdrop, if_neg hd]
    · next hc =>
      rw [if_neg hc]
      exact h

/-- What closes a literal at the end of `word` is no suffix of its own. -/
theorem close_append {kind k : TokenKind} {length : Nat} {clashes : UInt8 → Bool}
    (hclashes : ∀ b, isBlank b = true → clashes b = false) (hbehind : Bytes.Parted behind)
    (h : close kind length clashes (word ++ after) = .token k word.length) :
    close kind length clashes (word ++ behind) = .token k word.length := by
  have hlength := close_length h
  rw [close_kind h, ← hlength, close, List.drop_left, hbehind.not_any hclashes]
  rfl

theorem suffixKind_blank (fractional : Bool) :
    ∀ b, isBlank b = true → suffixKind fractional b = none := by
  cases fractional <;> exact forall_isBlank (by decide)

theorem hexadecimal_length_le {bytes : Bytes} {kind : TokenKind} {n : Nat}
    (h : hexadecimal bytes = .token kind n) : 2 + Bytes.run inHexDigits (bytes.drop 2) ≤ n := by
  unfold hexadecimal at h
  dsimp only at h
  split at h
  · cases h
  · split at h
    · rw [close_length h]
      exact Nat.le_succ _
    · rw [close_length h]

theorem hexadecimal_append {kind : TokenKind} (hbehind : Bytes.Parted behind)
    (h : hexadecimal (word ++ after) = .token kind word.length) :
    hexadecimal (word ++ behind) = .token kind word.length := by
  have hdigits : ∀ b, isBlank b = true → inHexDigits b = false := forall_isBlank (by decide)
  have hclash : ∀ b, isBlank b = true → isAlphanumeric b = false := forall_isBlank (by decide)
  have hlong : ∀ b, isBlank b = true → (b == of 'l' || b == of 'L') = false :=
    forall_isBlank (by decide)
  have hle := hexadecimal_length_le h
  unfold hexadecimal at h ⊢
  dsimp only at h ⊢
  generalize hrun : Bytes.run inHexDigits ((word ++ after).drop 2) = digits at h hle
  have hrun' : Bytes.run inHexDigits ((word ++ behind).drop 2) = digits := by
    have hdrop (rest : Bytes) : (word ++ rest).drop 2 = word.drop 2 ++ rest :=
      List.drop_append_of_le_length (by omega)
    rw [hdrop] at hrun ⊢
    rw [← hrun]
    refine Bytes.run_append_of_le hdigits hbehind ?_
    rw [hrun, List.length_drop]
    omega
  rw [hrun']
  split at h
  · cases h
  · next hd =>
    rw [if_neg hd]
    split at h
    · next hsuffix =>
      have hlength := close_length h
      rw [Bytes.head?_drop_append (by omega)] at hsuffix ⊢
      rw [if_pos hsuffix]
      exact close_append hclash hbehind h
    · have hend : (word ++ behind).drop (2 + digits) = behind := by
        rw [← close_length h, List.drop_left]
      rw [hend, hbehind.not_any hlong]
      exact close_append hclash hbehind h

theorem decimal_append {kind : TokenKind} (hbehind : Bytes.Parted behind)
    (h : decimal (word ++ after) = .token kind word.length) :
    decimal (word ++ behind) = .token kind word.length := by
  have hdigits : ∀ b, isBlank b = true → inDigits b = false := forall_isBlank (by decide)
  have hclash : ∀ b, isBlank b = true → decimal.inWordOrDigits b = false :=
    forall_isBlank (by decide)
  unfold decimal at h ⊢
  dsimp only at h ⊢
  generalize hwhole : Bytes.run inDigits (word ++ after) = whole at h
  generalize hfraction : fractionLength ((word ++ after).drop whole) = fraction at h
  split at h
  · cases h
  · next exponent hexponent =>
    have hle : whole + fraction + exponent ≤ word.length := by
      split at h
      · rw [close_length h]
        exact Nat.le_succ _
      · rw [close_length h]
    have hdrop {n : Nat} (hn : n ≤ word.length) (rest : Bytes) :
        (word ++ rest).drop n = word.drop n ++ rest := List.drop_append_of_le_length hn
    have hwhole' : Bytes.run inDigits (word ++ behind) = whole := by
      rw [← hwhole]
      exact Bytes.run_append_of_le hdigits hbehind (by omega)
    have hfraction' : fractionLength ((word ++ behind).drop whole) = fraction := by
      rw [hdrop (by omega)] at hfraction ⊢
      rw [← hfraction]
      refine fractionLength_append hbehind ?_
      rw [hfraction, List.length_drop]
      omega
    have hexponent' : exponentLength ((word ++ behind).drop (whole + fraction)) = .ok exponent := by
      rw [hdrop (by omega)] at hexponent ⊢
      refine exponentLength_append hbehind hexponent ?_
      rw [List.length_drop]
      omega
    rw [hwhole', hfraction', hexponent']
    dsimp only
    split at h
    · next hsuffix =>
      have hlength := close_length h
      rw [Bytes.head?_drop_append (by omega)] at hsuffix ⊢
      rw [hsuffix]
      exact close_append hclash hbehind h
    · have hend : (word ++ behind).drop (whole + fraction + exponent) = behind := by
        rw [← close_length h, List.drop_left]
      have hnone : behind.head?.bind (suffixKind (decide (0 < fraction + exponent))) = none :=
        Option.bind_eq_none_iff.mpr fun b hb => suffixKind_blank _ b (hbehind b hb)
      rw [hend, hnone]
      exact close_append hclash hbehind h

theorem read_append {kind : TokenKind} (hbehind : Bytes.Parted behind) (hne : word ≠ [])
    (h : read (word ++ after) = .token kind word.length) :
    read (word ++ behind) = .token kind word.length := by
  have hx : ∀ b, isBlank b = true → ¬ (b = of 'x' ∨ b = of 'X') := forall_isBlank (by decide)
  match word with
  | [] => exact absurd rfl hne
  | [a] =>
    -- One byte is no hexadecimal literal, whatever stood behind it.
    have hdecimal : decimal ([a] ++ after) = .token kind [a].length := by
      rcases after with _ | ⟨b, after⟩
      · exact h
      · simp only [List.cons_append, List.nil_append, read] at h ⊢
        split at h
        · have hle := hexadecimal_length_le h
          rw [List.length_singleton] at hle
          omega
        · exact h
    have hbehind' := decimal_append hbehind hdecimal
    rcases behind with _ | ⟨b, behind⟩
    · exact hbehind'
    · simp only [List.cons_append, List.nil_append, read]
      rw [if_neg fun hc => hx b (hbehind b rfl) hc.2]
      exact hbehind'
  | a :: b :: word =>
    simp only [List.cons_append, read] at h ⊢
    simp only [← List.cons_append] at h ⊢
    split at h
    · next hc =>
      rw [if_pos hc]
      exact hexadecimal_append hbehind h
    · next hc =>
      rw [if_neg hc]
      exact decimal_append hbehind h

end Number

namespace Quoted
variable {word after : Bytes}

theorem escape_pos {bytes : Bytes} {n : Nat} (h : escape bytes = .valid n) : 0 < n := by
  unfold escape at h
  split at h
  · cases h
  split at h
  · cases h
    exact Nat.one_pos
  split at h
  · dsimp only at h
    split at h
    · cases h
      omega
    · cases h
  · cases h

theorem escape_append {n : Nat} (h : escape (word ++ after) = .valid n) (hn : n ≤ word.length)
    (behind : Bytes) : escape (word ++ behind) = .valid n := by
  have hpos := escape_pos h
  cases word with
  | nil => exact absurd (Nat.lt_of_lt_of_le hpos hn) (Nat.lt_irrefl 0)
  | cons b word =>
    simp only [List.cons_append, escape] at h ⊢
    split at h
    · next hc =>
      rw [if_pos hc]
      exact h
    split at h
    · next hc hu =>
      rw [if_neg hc, if_pos hu]
      simp only [← List.cons_append] at h ⊢
      split at h
      · next hd =>
        cases h
        -- The marks and the digits lie in `word`.
        have hmarks : Bytes.run (· == of 'u') (b :: word ++ behind) =
            Bytes.run (· == of 'u') (b :: word ++ after) := Bytes.run_append_of_lt (by omega) behind
        have hfour (rest : Bytes) : ((b :: word ++ rest).drop
            (Bytes.run (· == of 'u') (b :: word ++ after))).take 4 =
              ((b :: word).drop (Bytes.run (· == of 'u') (b :: word ++ after))).take 4 := by
          rw [List.drop_append_of_le_length (by omega), List.take_append_of_le_length]
          rw [List.length_drop]
          omega
        rw [hfour] at hd
        rw [hmarks, hfour, if_pos hd]
      · cases h
    · cases h

/-- A literal does not look behind its closing quotation mark. -/
theorem body_append {quote : Quote} {length n : Nat} {bytes : Bytes} {kind : TokenKind}
    (h : body quote length bytes = .token kind n) (behind : Bytes) (hbytes : bytes = word ++ after)
    (hn : n = length + word.length) : body quote length (word ++ behind) = .token kind n := by
  fun_induction body quote length bytes generalizing word with
  | case1 => cases h
  | case2 => cases h
  | case3 length rest m he hb ih =>
    have hlt := body_lt h
    obtain ⟨c, word, rfl⟩ := List.exists_cons_of_length_pos (l := word) (by omega)
    obtain ⟨rfl, rfl⟩ := List.cons.inj hbytes
    rw [List.length_cons] at hn
    have hdrop (rest : Bytes) : (word ++ rest).drop m = word.drop m ++ rest :=
      List.drop_append_of_le_length (by omega)
    rw [List.cons_append, body, if_neg hb, if_pos rfl, escape_append he (by omega) behind]
    dsimp only
    rw [hdrop]
    exact ih h (hdrop after) (by rw [List.length_drop]; omega)
  | case4 => cases h
  | case5 => cases h
  | case6 length rest hline hslash =>
    cases h
    obtain ⟨c, word, rfl⟩ := List.exists_cons_of_length_pos (l := word) (by omega)
    obtain ⟨rfl, rfl⟩ := List.cons.inj hbytes
    rw [List.cons_append, body, if_neg hline, if_neg hslash, if_pos rfl]
  | case7 length b rest hline hslash hmark ih =>
    have hlt := body_lt h
    obtain ⟨c, word, rfl⟩ := List.exists_cons_of_length_pos (l := word) (by omega)
    obtain ⟨rfl, rfl⟩ := List.cons.inj hbytes
    rw [List.length_cons] at hn
    rw [List.cons_append, body, if_neg hline, if_neg hslash, if_neg hmark]
    exact ih h rfl (by omega)

end Quoted

namespace Punctuator
variable {word after behind : Bytes}

theorem doubles_blank : ∀ entry ∈ doubles, isBlank entry.1.2 = false := by decide

theorem read?_append {kind : TokenKind} (hbehind : Bytes.Parted behind)
    (h : read? (word ++ after) = some (kind, word.length)) :
    read? (word ++ behind) = some (kind, word.length) := by
  have hpos := read?_pos h
  match word with
  | [] => exact absurd hpos (Nat.lt_irrefl 0)
  | [a] =>
    have hsingle : (singles.lookup a).map (·, 1) = some (kind, 1) := by
      rcases after with _ | ⟨b, after⟩
      · exact h
      · simp only [List.cons_append, List.nil_append, read?] at h
        split at h
        · cases h
        · exact h
    rcases behind with _ | ⟨b, behind⟩
    · exact hsingle
    · simp only [List.cons_append, List.nil_append, read?]
      split
      · next hdouble =>
        have hblank := doubles_blank _ (lookup_mem hdouble)
        rw [hbehind b rfl] at hblank
        cases hblank
      · exact hsingle
  | a :: b :: word =>
    simp only [List.cons_append, read?] at h ⊢
    exact h

end Punctuator

namespace Lexeme
variable {word after behind : Bytes}

theorem word_append {kind : TokenKind} (hbehind : Bytes.Parted behind)
    (h : Lexeme.word (word ++ after) = .token kind word.length) :
    Lexeme.word (word ++ behind) = .token kind word.length := by
  have hblank : ∀ b, isBlank b = true → inWord b = false := forall_isBlank (by decide)
  unfold Lexeme.word at h ⊢
  dsimp only at h ⊢
  split at h
  · cases h
  · next text htext =>
    have hlength : Bytes.run inWord (word ++ after) = word.length := (Reading.token.inj h).2
    rw [hlength, List.take_left] at htext
    rw [hlength] at h
    rw [Bytes.run_append_of_le hblank hbehind (Nat.le_of_eq hlength), hlength, List.take_left,
      htext]
    exact h

/-- What is read as a token in front of some bytes is read so in front of a blank too. -/
theorem Reads.append {kind : TokenKind} (h : Reads kind word after)
    (hbehind : Bytes.Parted behind) : Reads kind word behind := by
  obtain ⟨first, rest, hword, h⟩ := h
  have hpos := read_pos h
  obtain ⟨c, tail, rfl⟩ := List.exists_cons_of_length_pos hpos
  rw [List.cons_append] at hword
  obtain ⟨rfl, rfl⟩ := List.cons.inj hword
  refine ⟨c, tail ++ behind, rfl, read_eq_iff.mpr ?_⟩
  -- The first byte is the same, so the same reader reads.
  cases read_eq_iff.mp h with
  | quoted hquote hmark hread =>
    have hlength : (c :: tail).length = 1 + tail.length := by rw [List.length_cons, Nat.add_comm]
    exact .quoted hquote hmark (Quoted.body_append hread behind rfl hlength)
  | number hmark hdigit hread =>
    exact .number hmark hdigit (Number.read_append hbehind (List.cons_ne_nil c tail) hread)
  | word hmark hdigit hstart hread =>
    rw [← List.cons_append] at hread
    have hbefore := word_append hbehind hread
    exact .word hmark hdigit hstart hbefore
  | punctuator hmark hdigit hstart hread =>
    rw [← List.cons_append] at hread
    have hbefore := Punctuator.read?_append hbehind hread
    exact .punctuator hmark hdigit hstart hbefore

end Lexeme

end SyntaxRecovery
