import SyntaxRecovery.Proofs.Lexical.Extent

/-! Of the tokens only words and quoted texts hold characters beyond ASCII. So every token starts
and ends at a character, and none is taken for the end of the source. -/
namespace SyntaxRecovery

/-- No byte belongs to a character beyond ASCII. -/
def Bytes.IsAscii (bytes : Bytes) : Prop := ∀ b ∈ bytes, b < 128

namespace Byte
variable {b : UInt8}

theorem lt_of_isDigit (h : isDigit b = true) : b < 128 := by
  simp only [isDigit, Bool.and_eq_true, decide_eq_true_eq] at h
  exact UInt8.lt_of_le_of_lt h.2 (by decide)

theorem lt_of_isHexDigit (h : isHexDigit b = true) : b < 128 := by
  simp only [isHexDigit, Bool.or_eq_true, Bool.and_eq_true, decide_eq_true_eq] at h
  rcases h with (h | h) | h
  · exact lt_of_isDigit h
  · exact UInt8.lt_of_le_of_lt h.2 (by decide)
  · exact UInt8.lt_of_le_of_lt h.2 (by decide)

end Byte

namespace Bytes
variable {p : UInt8 → Bool} {a b : Bytes} {n : Nat}

theorem IsAscii.append (ha : a.IsAscii) (hb : b.IsAscii) : IsAscii (a ++ b) := by
  intro x hx
  rcases List.mem_append.mp hx with hx | hx
  · exact ha x hx
  · exact hb x hx

theorem IsAscii.cons {x : UInt8} (hx : x < 128) (ha : a.IsAscii) : IsAscii (x :: a) :=
  List.forall_mem_cons.mpr ⟨hx, ha⟩

theorem isAscii_take_add {k : Nat} (ha : IsAscii (a.take n)) (hb : IsAscii ((a.drop n).take k)) :
    IsAscii (a.take (n + k)) := by
  rw [List.take_add]
  exact ha.append hb

theorem isAscii_take_run (hp : ∀ b, p b = true → b < 128) (a : Bytes) :
    IsAscii (a.take (a.run p)) := by
  have h : a.take (a.run p) = a.takeWhile p :=
    (List.prefix_iff_eq_take.mp (List.takeWhile_prefix p)).symm
  rw [h]
  exact fun b hb => hp b (List.all_eq_true.mp List.all_takeWhile b hb)

theorem isAscii_take_head {x : UInt8} (h : (a.drop n).head? = some x) (hx : x < 128) :
    IsAscii ((a.drop n).take 1) := by
  cases hd : a.drop n with
  | nil => simp [hd] at h
  | cons y ys =>
    rw [hd] at h
    cases h
    simpa [IsAscii] using hx

end Bytes

namespace Number
open Byte

theorem lt_of_inDigits (b : UInt8) (h : inDigits b = true) : b < 128 := by
  simp only [inDigits, Bool.or_eq_true, beq_iff_eq] at h
  rcases h with h | rfl
  · exact lt_of_isDigit h
  · decide

theorem lt_of_inHexDigits (b : UInt8) (h : inHexDigits b = true) : b < 128 := by
  simp only [inHexDigits, Bool.or_eq_true, beq_iff_eq] at h
  rcases h with h | rfl
  · exact lt_of_isHexDigit h
  · decide

theorem isAscii_fraction (bytes : Bytes) : Bytes.IsAscii (bytes.take (fractionLength bytes)) := by
  unfold fractionLength
  split
  · next point digit rest =>
    split
    · next h =>
      rw [Nat.add_comm, List.take_succ_cons]
      refine .cons ?_ (Bytes.isAscii_take_run lt_of_inDigits _)
      rw [h.1]
      decide
    · simp [Bytes.IsAscii]
  · simp [Bytes.IsAscii]

theorem isAscii_sign (rest : Bytes) : Bytes.IsAscii (rest.take
    (if (rest.head?.any fun b => b == of '+' || b == of '-') = true then 1 else 0)) := by
  cases rest with
  | nil => simp [Bytes.IsAscii]
  | cons b rest =>
    split
    · next hb =>
      simp only [List.head?_cons, Option.any_some, Bool.or_eq_true, beq_iff_eq] at hb
      rcases hb with rfl | rfl <;> simp [Bytes.IsAscii] <;> decide
    · simp [Bytes.IsAscii]

theorem lt_of_exponentMark {mark : UInt8} (h : mark = of 'e' ∨ mark = of 'E') : mark < 128 := by
  rcases h with rfl | rfl <;> decide

theorem isAscii_exponent {bytes : Bytes} {n : Nat} (h : exponentLength bytes = .ok n) :
    Bytes.IsAscii (bytes.take n) := by
  unfold exponentLength at h
  split at h
  · cases h
    simp [Bytes.IsAscii]
  · next mark rest =>
    split at h
    · next hmark =>
      have hsign := isAscii_sign rest
      dsimp only at h
      generalize (if (rest.head?.any _) = true then 1 else 0) = sign at h hsign
      split at h
      · cases h
      · cases h
        rw [Nat.add_assoc, Nat.add_comm 1, List.take_succ_cons]
        exact .cons (lt_of_exponentMark hmark)
          (Bytes.isAscii_take_add hsign (Bytes.isAscii_take_run lt_of_inDigits _))
    · cases h
      simp [Bytes.IsAscii]

theorem isAscii_exponent_error {bytes : Bytes} {n : Nat} (h : exponentLength bytes = .error n) :
    Bytes.IsAscii (bytes.take n) := by
  unfold exponentLength at h
  split at h
  · cases h
  · next mark rest =>
    split at h
    · next hmark =>
      have hsign := isAscii_sign rest
      dsimp only at h
      generalize (if (rest.head?.any _) = true then 1 else 0) = sign at h hsign
      split at h
      · cases h
        rw [Nat.add_comm 1, List.take_succ_cons]
        exact .cons (lt_of_exponentMark hmark) hsign
      · cases h
    · cases h

theorem suffixKind_lt {fractional : Bool} {b : UInt8} {kind : TokenKind}
    (h : suffixKind fractional b = some kind) : b < 128 ∧ kind ≠ .endOfSource := by
  unfold suffixKind at h
  split at h
  · next hb =>
    cases h
    rcases hb.1 with rfl | rfl <;> decide
  split at h
  · next hb =>
    cases h
    rcases hb with rfl | rfl <;> decide
  split at h
  · next hb =>
    cases h
    rcases hb with rfl | rfl <;> decide
  · cases h

theorem close_kind {kind k : TokenKind} {length n : Nat} {clashes : UInt8 → Bool}
    {bytes : Bytes} (h : close kind length clashes bytes = .token k n) : k = kind := by
  unfold close malformed at h
  split at h
  · cases h
  · cases h
    rfl

theorem hexadecimal_ascii {bytes : Bytes} {kind : TokenKind} {n : Nat}
    (h : hexadecimal bytes = .token kind n) (hhead : Bytes.IsAscii (bytes.take 2)) :
    Bytes.IsAscii (bytes.take n) ∧ kind ≠ .endOfSource := by
  have hdigits := Bytes.isAscii_take_add hhead
    (Bytes.isAscii_take_run lt_of_inHexDigits (bytes.drop 2))
  unfold hexadecimal at h
  dsimp only at h
  split at h
  · cases h
  split at h
  · next hsuffix =>
    obtain ⟨b, hb, hl⟩ := (Option.any_eq_true _ _).mp hsuffix
    simp only [Bool.or_eq_true, beq_iff_eq] at hl
    have hlt : b < 128 := by
      rcases hl with rfl | rfl <;> decide
    rw [close_kind h, close_length h]
    exact ⟨Bytes.isAscii_take_add hdigits (Bytes.isAscii_take_head hb hlt), by decide⟩
  · rw [close_kind h, close_length h]
    exact ⟨hdigits, by decide⟩

theorem decimal_ascii {bytes : Bytes} {kind : TokenKind} {n : Nat}
    (h : decimal bytes = .token kind n) :
    Bytes.IsAscii (bytes.take n) ∧ kind ≠ .endOfSource := by
  have hfraction := Bytes.isAscii_take_add (Bytes.isAscii_take_run lt_of_inDigits bytes)
    (isAscii_fraction (bytes.drop (bytes.run inDigits)))
  unfold decimal at h
  dsimp only at h
  split at h
  · cases h
  · next exponent he =>
    have hexponent := Bytes.isAscii_take_add hfraction (isAscii_exponent he)
    split at h
    · next suffix hs =>
      obtain ⟨b, hb, hkind⟩ := Option.bind_eq_some_iff.mp hs
      obtain ⟨hlt, hne⟩ := suffixKind_lt hkind
      rw [close_kind h, close_length h]
      exact ⟨Bytes.isAscii_take_add hexponent (Bytes.isAscii_take_head hb hlt), hne⟩
    · rw [close_kind h, close_length h]
      refine ⟨hexponent, ?_⟩
      split <;> decide

theorem read_ascii {bytes : Bytes} {kind : TokenKind} {n : Nat} (h : read bytes = .token kind n) :
    Bytes.IsAscii (bytes.take n) ∧ kind ≠ .endOfSource := by
  unfold read at h
  split at h
  · split at h
    · next hx =>
      obtain ⟨rfl, hx⟩ := hx
      refine hexadecimal_ascii h (.cons (by decide) (.cons ?_ (by simp [Bytes.IsAscii])))
      rcases hx with rfl | rfl <;> decide
    · exact decimal_ascii h
  · exact decimal_ascii h

end Number

theorem lookup_mem {α β : Type} [BEq α] [LawfulBEq α] {l : List (α × β)} {k : α} {b : β}
    (h : l.lookup k = some b) : (k, b) ∈ l := by
  obtain ⟨l₁, l₂, rfl, -⟩ := List.lookup_eq_some_iff.mp h
  simp

theorem Punctuator.doubles_ascii : ∀ entry ∈ doubles,
    entry.1.1 < 128 ∧ entry.1.2 < 128 ∧ entry.2 ≠ .endOfSource := by
  decide

theorem Punctuator.singles_ascii : ∀ entry ∈ singles,
    entry.1 < 128 ∧ entry.2 ≠ .endOfSource := by
  decide

theorem Punctuator.read?_ascii {bytes : Bytes} {kind : TokenKind} {n : Nat}
    (h : read? bytes = some (kind, n)) : Bytes.IsAscii (bytes.take n) ∧ kind ≠ .endOfSource := by
  have single {a : UInt8} {rest : Bytes} (h : (singles.lookup a).map (·, 1) = some (kind, n)) :
      Bytes.IsAscii ((a :: rest).take n) ∧ kind ≠ .endOfSource := by
    obtain ⟨_, hl, heq⟩ := Option.map_eq_some_iff.mp h
    cases heq
    obtain ⟨ha, hk⟩ := singles_ascii _ (lookup_mem hl)
    exact ⟨by simpa [Bytes.IsAscii] using ha, hk⟩
  unfold read? at h
  split at h
  · split at h
    · next hl =>
      cases h
      obtain ⟨ha, hb, hk⟩ := doubles_ascii _ (lookup_mem hl)
      exact ⟨by simpa [Bytes.IsAscii] using ⟨ha, hb⟩, hk⟩
    · exact single h
  · exact single h
  · cases h

/-- A literal ends with its quotation mark. -/
theorem Quoted.body_closes {quote : Quote} {length n : Nat} {bytes : Bytes} {kind : TokenKind}
    (h : body quote length bytes = .token kind n) :
    length < n ∧ bytes[n - 1 - length]? = some quote.mark ∧ kind = quote.kind := by
  fun_induction body quote length bytes with
  | case1 => cases h
  | case2 => cases h
  | case3 length rest m he _ ih =>
    obtain ⟨hlt, hget, hk⟩ := ih h
    refine ⟨by omega, ?_, hk⟩
    rw [List.getElem?_drop] at hget
    rw [show n - 1 - length = m + (n - 1 - (length + 1 + m)) + 1 by omega, List.getElem?_cons_succ]
    exact hget
  | case4 => cases h
  | case5 => cases h
  | case6 length b rest =>
    cases h
    simp
  | case7 length b rest _ _ _ ih =>
    obtain ⟨hlt, hget, hk⟩ := ih h
    refine ⟨by omega, ?_, hk⟩
    rw [show n - 1 - length = (n - 1 - (length + 1)) + 1 by omega, List.getElem?_cons_succ]
    exact hget

theorem TokenKind.keyword?_ne {word : String} {kind : TokenKind} (h : keyword? word = some kind) :
    kind ≠ .endOfSource := by
  have hm := List.mem_of_find?_eq_some h
  rintro rfl
  revert hm
  decide

namespace Lexeme

/-- What is read is text of its own, or starts and ends with an ASCII character; and it is no end of
the source. -/
theorem read_ends {first : UInt8} {rest : Bytes} {kind : TokenKind} {n : Nat}
    (h : read first rest = .token kind n) : kind ≠ .endOfSource ∧
      ((∃ word, Bytes.text? ((first :: rest).take n) = some word) ∨
        first < 128 ∧ ∃ b, (first :: rest)[n - 1]? = some b ∧ b < 128) := by
  have hpos := read_pos h
  have hle : n ≤ rest.length + 1 := by
    have := read_extent_le first rest
    rwa [h] at this
  have ascii (h : Bytes.IsAscii ((first :: rest).take n)) :
      first < 128 ∧ ∃ b, (first :: rest)[n - 1]? = some b ∧ b < 128 := by
    have hget (i : Nat) (hi : i < n) : ∃ b, (first :: rest)[i]? = some b ∧ b < 128 := by
      have hlen : i < (first :: rest).length := by
        simp only [List.length_cons]
        omega
      refine ⟨_, List.getElem?_eq_getElem hlen, h _ ?_⟩
      exact List.mem_take_iff_getElem.mpr ⟨i, by simp only [List.length_cons] at hlen ⊢; omega, rfl⟩
    obtain ⟨b, hb, hlt⟩ := hget 0 hpos
    cases hb
    exact ⟨hlt, hget (n - 1) (by omega)⟩
  cases read_eq_iff.mp h with
  | @quoted quote _ hquote hfirst hread =>
    have hmark : quote.mark < 128 ∧ quote.kind ≠ .endOfSource := by
      rcases hquote with rfl | rfl <;> decide
    obtain ⟨hlt, hget, rfl⟩ := Quoted.body_closes hread
    refine ⟨hmark.2, .inr ⟨hfirst ▸ hmark.1, quote.mark, ?_, hmark.1⟩⟩
    rw [show n - 1 = n - 1 - 1 + 1 by omega, List.getElem?_cons_succ]
    exact hget
  | number _ _ hread =>
    obtain ⟨ha, hk⟩ := Number.read_ascii hread
    exact ⟨hk, .inr (ascii ha)⟩
  | word _ _ _ hread =>
    obtain ⟨-, hnone⟩ | ⟨word, hword, hsome⟩ := word_cases hread
    · cases hnone
    · cases hsome
      refine ⟨?_, .inl ⟨word, hword⟩⟩
      cases hk : TokenKind.keyword? word with
      | none => decide
      | some kind => exact TokenKind.keyword?_ne hk
  | punctuator _ _ _ hread =>
    obtain ⟨ha, hk⟩ := Punctuator.read?_ascii hread
    exact ⟨hk, .inr (ascii ha)⟩

end Lexeme
end SyntaxRecovery
