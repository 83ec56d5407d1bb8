import SyntaxRecovery.Scanner

/-! Nothing that the scanner reads goes beyond the bytes it is given. -/
namespace SyntaxRecovery

theorem Bytes.run_le (p : UInt8 → Bool) (bytes : Bytes) : bytes.run p ≤ bytes.length :=
  (List.takeWhile_prefix p).length_le

theorem Trivia.blockLength?_le {length n : Nat} {bytes : Bytes}
    (h : blockLength? length bytes = some n) : n ≤ length + bytes.length := by
  fun_induction blockLength? length bytes with
  | case1 length a b rest hc =>
    cases h
    simp only [List.length_cons]
    omega
  | case2 length a b rest hc ih =>
    have := ih h
    simp only [List.length_cons] at this ⊢
    omega
  | case3 => cases h

theorem Trivia.skip_bounds {length n : Nat} {bytes : Bytes} (h : skip length bytes = .ok n) :
    length ≤ n ∧ n ≤ length + bytes.length := by
  fun_induction skip length bytes with
  | case1 => cases h; simp
  | case2 length b =>
    cases h
    simp only [List.length_singleton]
    split <;> omega
  | case3 length a b rest ha ih =>
    have := ih h
    simp only [List.length_cons] at this ⊢
    omega
  | case4 length a b rest ha hs comment ih =>
    have := ih h
    have hc : comment ≤ rest.length := Bytes.run_le _ rest
    simp only [List.length_cons, List.length_drop] at this ⊢
    omega
  | case5 => cases h
  | case6 length a b rest ha hs ho comment hb ih =>
    have := ih h
    have hc := blockLength?_le hb
    simp only [List.length_cons, List.length_drop] at this ⊢
    omega
  | case7 => cases h; simp

/-- How many bytes a reading takes, those after a fault that it has looked at among them. -/
def Reading.extent : Reading → Nat
  | .token _ length => length
  | .failed _ _ length => length
  | .midCharacter => 0

/-- How many bytes an escape takes, those after a fault that it has looked at among them. -/
def Quoted.Escape.extent : Quoted.Escape → Nat
  | .valid length => length
  | .invalid _ length => length
  | .cut => 0

theorem Quoted.escape_extent_le (bytes : Bytes) : (escape bytes).extent ≤ bytes.length := by
  unfold escape
  split
  · exact Nat.le_refl _
  · next b rest =>
    have hmarks := Bytes.run_le (· == Byte.of 'u') (b :: rest)
    have hdigits := Bytes.run_le Byte.isHexDigit
      (((b :: rest).drop (Bytes.run (· == Byte.of 'u') (b :: rest))).take 4)
    rw [List.length_take, List.length_drop] at hdigits
    split
    · simp [Escape.extent]
    split
    · dsimp only
      split <;> simp only [Escape.extent] <;> omega
    · exact Nat.zero_le _

theorem Quoted.body_extent_le (quote : Quote) (length : Nat) (bytes : Bytes) :
    (body quote length bytes).extent ≤ length + bytes.length := by
  fun_induction body quote length bytes with
  | case1 => simp [Reading.extent]
  | case2 => simp [Reading.extent]
  | case3 length rest n he _ ih =>
    have hm := escape_extent_le rest
    rw [he] at hm
    simp only [Escape.extent, List.length_cons, List.length_drop] at hm ih ⊢
    omega
  | case4 length rest c n he =>
    have hm := escape_extent_le rest
    rw [he] at hm
    simp only [Escape.extent, Reading.extent, List.length_cons] at hm ⊢
    omega
  | case5 =>
    simp only [Reading.extent, List.length_cons]
    omega
  | case6 =>
    simp only [Reading.extent, List.length_cons]
    omega
  | case7 length b rest _ _ _ ih =>
    simp only [List.length_cons] at ih ⊢
    omega

namespace Number

theorem close_length {kind k : TokenKind} {length n : Nat} {clashes : UInt8 → Bool}
    {bytes : Bytes} (h : close kind length clashes bytes = .token k n) : n = length := by
  unfold close malformed at h
  split at h
  · cases h
  · cases h
    rfl

theorem fractionLength_le (bytes : Bytes) : fractionLength bytes ≤ bytes.length := by
  unfold fractionLength
  split
  · next point digit rest =>
    have := Bytes.run_le inDigits (digit :: rest)
    simp only [List.length_cons] at this ⊢
    split <;> omega
  · exact Nat.zero_le _

theorem exponentLength_le {bytes : Bytes} {n : Nat} (h : exponentLength bytes = .ok n) :
    n ≤ bytes.length := by
  unfold exponentLength at h
  split at h
  · cases h
    simp
  · next mark rest =>
    split at h
    · dsimp only at h
      generalize (if (rest.head?.any _) = true then 1 else 0) = sign at h
      split at h
      · cases h
      · next hd =>
        cases h
        have hr := Bytes.run_le inDigits (rest.drop sign)
        simp only [List.length_drop, List.length_cons] at hr ⊢
        omega
    · cases h
      simp

/-- A byte that is looked at lies before the end. -/
theorem lt_length_of_head? {bytes : Bytes} {length : Nat} {b : UInt8}
    (h : (bytes.drop length).head? = some b) : length < bytes.length := by
  refine Nat.lt_of_not_le fun hl => ?_
  rw [List.drop_eq_nil_of_le hl] at h
  cases h

theorem exponentLength_error_le {bytes : Bytes} {n : Nat} (h : exponentLength bytes = .error n) :
    n ≤ bytes.length := by
  unfold exponentLength at h
  split at h
  · cases h
  · next mark rest =>
    split at h
    · dsimp only at h
      generalize hsign : (if (rest.head?.any fun b => b == Byte.of '+' || b == Byte.of '-') = true
        then 1 else 0) = sign at h
      have hs : sign ≤ rest.length := by
        subst hsign
        cases rest with
        | nil => simp
        | cons =>
          simp only [List.length_cons]
          split <;> omega
      split at h
      · cases h
        simp only [List.length_cons]
        omega
      · cases h
    · cases h

theorem close_extent_le {kind : TokenKind} {length : Nat} {clashes : UInt8 → Bool}
    {bytes : Bytes} (h : length ≤ bytes.length) :
    (close kind length clashes bytes).extent ≤ bytes.length := by
  unfold close malformed
  split
  · next hc =>
    obtain ⟨b, hb, -⟩ := (Option.any_eq_true _ _).mp hc
    exact lt_length_of_head? hb
  · exact h

theorem hexadecimal_extent_le {bytes : Bytes} (h2 : 2 ≤ bytes.length) :
    (hexadecimal bytes).extent ≤ bytes.length := by
  have hr := Bytes.run_le inHexDigits (bytes.drop 2)
  rw [List.length_drop] at hr
  unfold hexadecimal malformed
  dsimp only
  split
  · exact h2
  split
  · next hs =>
    obtain ⟨b, hb, -⟩ := (Option.any_eq_true _ _).mp hs
    exact close_extent_le (lt_length_of_head? hb)
  · exact close_extent_le (by omega)

theorem decimal_extent_le (bytes : Bytes) : (decimal bytes).extent ≤ bytes.length := by
  have hw := Bytes.run_le inDigits bytes
  have hf := fractionLength_le (bytes.drop (bytes.run inDigits))
  rw [List.length_drop] at hf
  unfold decimal malformed
  dsimp only
  split
  · next exponent he =>
    have := exponentLength_error_le he
    rw [List.length_drop] at this
    simp only [Reading.extent]
    omega
  · next exponent he =>
    have := exponentLength_le he
    rw [List.length_drop] at this
    split
    · next hs =>
      obtain ⟨b, hb, -⟩ := Option.bind_eq_some_iff.mp hs
      exact close_extent_le (lt_length_of_head? hb)
    · exact close_extent_le (by omega)

theorem read_extent_le (bytes : Bytes) : (read bytes).extent ≤ bytes.length := by
  unfold read
  split
  · split
    · exact hexadecimal_extent_le (by simp)
    · exact decimal_extent_le _
  · exact decimal_extent_le _

end Number

theorem Punctuator.read?_le {bytes : Bytes} {kind : TokenKind} {n : Nat}
    (h : read? bytes = some (kind, n)) : n ≤ bytes.length := by
  unfold read? at h
  split at h
  · split at h
    · cases h
      simp
    · obtain ⟨_, _, hn⟩ := Option.map_eq_some_iff.mp h
      cases hn
      simp
  · obtain ⟨_, _, hn⟩ := Option.map_eq_some_iff.mp h
    cases hn
    simp
  · cases h

theorem Lexeme.read_extent_le (first : UInt8) (rest : Bytes) :
    (read first rest).extent ≤ rest.length + 1 := by
  generalize h : read first rest = reading
  cases read_eq_iff.mp h with
  | @quoted quote _ _ _ hread =>
    have hbody := Quoted.body_extent_le quote 1 rest
    rw [← hread, Quoted.read]
    omega
  | number _ _ hread => exact hread ▸ Number.read_extent_le (first :: rest)
  | word _ _ _ hread =>
    obtain ⟨-, hread⟩ | ⟨text, -, hread⟩ := word_cases hread
    · rw [hread]
      exact Nat.zero_le _
    · rw [hread]
      exact Bytes.run_le Byte.inWord (first :: rest)
  | punctuator _ _ _ hread => exact Punctuator.read?_le hread
  | unexpected => exact Nat.zero_le _

end SyntaxRecovery
