import SyntaxRecovery.Proofs.Lexical.Locality

/-! String and character literals. What stands behind the opening mark is taken apart into items,
and where no item stands the literal is closed or given up. -/
namespace SyntaxRecovery

namespace Bytes
variable {text : String} {i : Nat} {b : UInt8} {after : Bytes}

theorem ofText_append (s t : String) : ofText (s ++ t) = ofText s ++ ofText t := by
  apply toByteArray_inj
  rw [List.toByteArray_append, toByteArray_ofText, toByteArray_ofText, toByteArray_ofText,
    String.toByteArray_append]

theorem ofText_singleton (c : Char) : ofText (.singleton c) = String.utf8EncodeChar c := by
  apply toByteArray_inj
  rw [toByteArray_ofText, String.toByteArray_singleton, List.utf8Encode_singleton]

/-- A character at the front is read back. -/
theorem firstChar_append (c : Char) (after : Bytes) :
    firstChar (ofText (.singleton c) ++ after) = c := by
  have hle : (String.utf8EncodeChar c).length ≤ 4 := by
    rw [String.length_utf8EncodeChar]
    exact c.utf8Size_le_four
  rw [ofText_singleton, firstChar, List.take_append, List.take_of_length_le hle,
    List.toByteArray_append, ByteArray.utf8DecodeChar?_utf8EncodeChar_append]
  rfl

/-- Behind a byte below 128 the text goes on with a character, if it does go on. -/
theorem exists_char (hdrop : (ofText text).drop i = b :: after) (hb : b < 128) (hne : after ≠ []) :
    ∃ c behind, after = ofText (.singleton c) ++ behind := by
  have hget : (ofText text)[i]? = some b := by
    rw [← Nat.add_zero i, ← List.getElem?_drop, hdrop]
    rfl
  obtain ⟨before, rest, rfl, hi⟩ :=
    String.Pos.Raw.isValid_iff_exists_append.mp (isValid_of_lt hget hb).2
  have hlength : (ofText before).length = i + 1 := by
    rw [length_ofText]
    exact (congrArg String.Pos.Raw.byteIdx hi).symm
  have hafter : ofText rest = after := by
    rw [ofText_append] at hdrop
    have h := congrArg (List.drop 1) hdrop
    rwa [List.drop_drop, ← hlength, List.drop_left] at h
  subst hafter
  cases hlist : rest.toList with
  | nil =>
    obtain rfl : rest = "" := String.toList_inj.mp hlist
    exact absurd rfl hne
  | cons c chars =>
    have hrest : rest = .singleton c ++ .ofList chars := String.toList_inj.mp (by simp [hlist])
    exact ⟨c, ofText (.ofList chars), by rw [hrest, ofText_append]⟩

end Bytes

namespace Quoted
open Byte

/-- What makes an escape of the backslash in front: one of some marks, or any number of `u`, but not
none, and four hexadecimal digits. -/
inductive IsEscape : Bytes → Prop
  | simple {b : UInt8} (hb : isSimpleEscape b = true) : IsEscape [b]
  | unicode {n : Nat} {digits : Bytes} (hlength : digits.length = 4)
    (hdigits : ∀ b ∈ digits, isHexDigit b = true) :
    IsEscape (List.replicate (n + 1) (of 'u') ++ digits)

/-- What a literal consists of between its marks. -/
inductive Items (quote : Quote) : Bytes → Prop
  | nil : Items quote []
  | plain {b : UInt8} {items : Bytes} (hmark : b ≠ quote.mark) (hslash : b ≠ of '\\')
    (hline : b ≠ of '\n') (rest : Items quote items) : Items quote (b :: items)
  | escape {escape items : Bytes} (hescape : IsEscape escape) (rest : Items quote items) :
    Items quote (of '\\' :: (escape ++ items))

inductive Ending where
  | closed
  | unterminated
  | invalidEscape (escape : Char)

/-- Where no item stands: what a literal comes to there. A run of `u` without its digits is named by
the first `u`, and this is the character behind the backslash. -/
inductive Ends (quote : Quote) : Bytes → Ending → Prop
  | mark {after : Bytes} : Ends quote (quote.mark :: after) .closed
  | lineFeed {after : Bytes} : Ends quote (of '\n' :: after) .unterminated
  | finish : Ends quote [] .unterminated
  | backslash : Ends quote [of '\\'] .unterminated
  | invalid {c : Char} {after : Bytes} (h : ∀ escape behind,
      Bytes.ofText (.singleton c) ++ after = escape ++ behind → ¬ IsEscape escape) :
    Ends quote (of '\\' :: (Bytes.ofText (.singleton c) ++ after)) (.invalidEscape c)

variable {quote : Quote} {bytes items rest after : Bytes}

theorem escape_append_of_isEscape (h : IsEscape bytes) (after : Bytes) :
    escape (bytes ++ after) = .valid bytes.length := by
  cases h with
  | simple hb => exact if_pos hb
  | @unicode n digits hlength hdigits =>
    have hmarks : Bytes.run (· == of 'u') (List.replicate (n + 1) (of 'u') ++ (digits ++ after)) =
        n + 1 := by
      rw [Bytes.run_append, List.length_replicate]
      · exact fun b hb => beq_iff_eq.mpr (List.eq_of_mem_replicate hb)
      · intro b hb
        rw [List.head?_append_of_ne_nil _ (List.ne_nil_of_length_eq_add_one hlength)] at hb
        refine Bool.eq_false_iff.mpr fun hu => ?_
        have hhex := hdigits b (List.mem_of_mem_head? hb)
        rw [beq_iff_eq.mp hu] at hhex
        exact absurd hhex (by decide)
    have hfour : Bytes.run isHexDigit ((List.replicate (n + 1) (of 'u') ++ (digits ++ after)).drop
        (n + 1) |>.take 4) = 4 := by
      have hdrop : (List.replicate (n + 1) (of 'u') ++ (digits ++ after)).drop (n + 1) =
          digits ++ after := List.drop_left' List.length_replicate
      have hrun : Bytes.run isHexDigit digits = digits.length := by
        rw [← List.append_nil digits, Bytes.run_append hdigits (fun _ hb => by cases hb),
          List.append_nil]
      rw [hdrop, List.take_left' hlength, hrun, hlength]
    have hbytes : List.replicate (n + 1) (of 'u') ++ digits ++ after =
        of 'u' :: (List.replicate n (of 'u') ++ (digits ++ after)) := List.append_assoc _ _ _
    rw [hbytes, escape, if_neg (by decide), if_pos rfl, ← List.cons_append, ← List.replicate_succ]
    dsimp only
    rw [hmarks, hfour, if_pos rfl, List.length_append, List.length_replicate, hlength]

theorem isEscape_of_escape {n : Nat} (h : escape bytes = .valid n) :
    ∃ escape after, bytes = escape ++ after ∧ IsEscape escape ∧ escape.length = n := by
  unfold escape at h
  split at h
  · cases h
  next b rest =>
  split at h
  · next hb =>
    cases h
    exact ⟨[b], rest, rfl, .simple hb, rfl⟩
  split at h
  · next hb =>
    obtain ⟨marks, behind, heq, hrun, hmarks, -⟩ := Bytes.run_split (· == of 'u') (b :: rest)
    obtain ⟨digits, behind', hfour, hrun', hdigits, -⟩ := Bytes.run_split isHexDigit (behind.take 4)
    dsimp only at h
    rw [hrun, heq, List.drop_left, hrun'] at h
    split at h
    · next hlength =>
      cases h
      have hpos : 0 < marks.length := hrun ▸ Bytes.run_pos (beq_iff_eq.mpr hb)
      have hnil : behind' = [] := by
        have hle := congrArg List.length hfour
        rw [List.length_take, List.length_append] at hle
        exact List.eq_nil_of_length_eq_zero (by omega)
      rw [hnil, List.append_nil] at hfour
      obtain ⟨n, hn⟩ := Nat.exists_eq_add_one.mpr hpos
      have hmarks' : marks = List.replicate (n + 1) (of 'u') :=
        List.eq_replicate_iff.mpr ⟨hn, fun b hb => beq_iff_eq.mp (hmarks b hb)⟩
      refine ⟨marks ++ digits, behind.drop 4, ?_, ?_, ?_⟩
      · rw [heq, List.append_assoc, ← hfour, List.take_append_drop]
      · rw [hmarks']
        exact .unicode hlength hdigits
      · rw [List.length_append, hlength]
    · cases h
  · cases h

/-- Where no escape can be made, the character there is named. -/
theorem escape_of_not_isEscape {c : Char}
    (h : ∀ escape behind, Bytes.ofText (.singleton c) ++ after = escape ++ behind →
      ¬ IsEscape escape) :
    ∃ n, escape (Bytes.ofText (.singleton c) ++ after) = .invalid c n := by
  have hfirst := Bytes.firstChar_append c after
  have hne : Bytes.ofText (.singleton c) ++ after ≠ [] := by
    rw [Bytes.ofText_singleton]
    exact List.append_ne_nil_of_left_ne_nil String.utf8EncodeChar_ne_nil _
  generalize Bytes.ofText (.singleton c) ++ after = bytes at h hfirst hne
  obtain ⟨b, rest, rfl⟩ := List.exists_cons_of_ne_nil hne
  have hsimple : ¬ isSimpleEscape b = true := fun hb => h [b] rest rfl (.simple hb)
  have hvalid (n : Nat) : escape (b :: rest) ≠ .valid n := by
    intro hescape
    obtain ⟨e, behind, heq, he, -⟩ := isEscape_of_escape hescape
    exact h e behind heq he
  rw [escape, if_neg hsimple] at hvalid ⊢
  by_cases hu : b = of 'u'
  · rw [if_pos hu] at hvalid ⊢
    have hc : c = 'u' := by
      rw [← hfirst, hu]
      exact Bytes.firstChar_append 'u' rest
    dsimp only at hvalid ⊢
    split at hvalid
    · exact absurd rfl (hvalid _)
    · next hdigits =>
      rw [if_neg hdigits, hc]
      exact ⟨_, rfl⟩
  · rw [if_neg hu, hfirst]
    exact ⟨0, rfl⟩

theorem mark_ne (hquote : quote = doubleQuote ∨ quote = singleQuote) :
    quote.mark ≠ of '\n' ∧ quote.mark ≠ of '\\' := by
  rcases hquote with rfl | rfl <;> decide

/-- Items are passed over. -/
theorem Items.body_append (h : Items quote items) (length : Nat) (rest : Bytes) :
    body quote length (items ++ rest) = body quote (length + items.length) rest := by
  induction h generalizing length with
  | nil => rfl
  | plain hmark hslash hline _ ih =>
    rw [List.cons_append, body, if_neg hline, if_neg hslash, if_neg hmark, ih, List.length_cons,
      Nat.add_right_comm, Nat.add_assoc]
  | @escape escape items hescape _ ih =>
    have hvalid := escape_append_of_isEscape hescape (items ++ rest)
    rw [List.cons_append, List.append_assoc, body, if_neg (by decide), if_pos rfl, hvalid]
    dsimp only
    rw [List.drop_left, ih, List.length_cons, List.length_append]
    congr 1
    omega

/-- What the reading comes to where the items end, `length` bytes behind the start of the
literal. -/
theorem Ends.body_eq {ending : Ending} (hquote : quote = doubleQuote ∨ quote = singleQuote)
    (h : Ends quote rest ending) (length : Nat) : match ending with
      | .closed => body quote length rest = .token quote.kind (length + 1)
      | .unterminated => ∃ n, body quote length rest = .failed quote.unterminated 0 n
      | .invalidEscape c => ∃ n, body quote length rest = .failed (.invalidEscape c) length n := by
  obtain ⟨hline, hslash⟩ := mark_ne hquote
  cases h with
  | mark =>
    dsimp only
    rw [body, if_neg hline, if_neg hslash, if_pos rfl]
  | lineFeed => exact ⟨length, by rw [body, if_pos rfl]⟩
  | finish => exact ⟨length, by rw [body]⟩
  | backslash => exact ⟨length + 1, by rw [body, if_neg (by decide), if_pos rfl]; rfl⟩
  | invalid h =>
    obtain ⟨n, hinvalid⟩ := escape_of_not_isEscape h
    exact ⟨length + 1 + n, by rw [body, if_neg (by decide), if_pos rfl, hinvalid]⟩

/-- Items go on to the closing mark, a line feed, the end, or a backslash that makes no escape. -/
theorem exists_items (quote : Quote) (bytes : Bytes) : ∃ items rest, bytes = items ++ rest ∧
    Items quote items ∧ (rest = [] ∨ ∃ b after, rest = b :: after ∧ (b = quote.mark ∨ b = of '\n' ∨
      b = of '\\' ∧ ∀ escape behind, after = escape ++ behind → ¬ IsEscape escape)) := by
  fun_induction body quote 0 bytes with
  | case1 => exact ⟨[], [], rfl, .nil, .inl rfl⟩
  | case2 _ rest => exact ⟨[], of '\n' :: rest, rfl, .nil, .inr ⟨_, _, rfl, .inr (.inl rfl)⟩⟩
  | case3 _ rest n hvalid _ ih =>
    obtain ⟨escape, behind, rfl, hescape, rfl⟩ := isEscape_of_escape hvalid
    obtain ⟨items, rest, heq, hitems, hstop⟩ := ih
    rw [List.drop_left] at heq
    exact ⟨of '\\' :: (escape ++ items), rest, by simp [heq], .escape hescape hitems, hstop⟩
  | case4 _ rest c n hinvalid =>
    refine ⟨[], of '\\' :: rest, rfl, .nil, .inr ⟨_, _, rfl, .inr (.inr ⟨rfl, ?_⟩)⟩⟩
    rintro escape behind rfl hescape
    cases hinvalid.symm.trans (escape_append_of_isEscape hescape behind)
  | case5 _ rest hcut =>
    refine ⟨[], of '\\' :: rest, rfl, .nil, .inr ⟨_, _, rfl, .inr (.inr ⟨rfl, ?_⟩)⟩⟩
    rintro escape behind rfl hescape
    cases hcut.symm.trans (escape_append_of_isEscape hescape behind)
  | case6 _ rest => exact ⟨[], quote.mark :: rest, rfl, .nil, .inr ⟨_, _, rfl, .inl rfl⟩⟩
  | case7 _ b rest hline hslash hmark ih =>
    obtain ⟨items, rest, rfl, hitems, hstop⟩ := ih
    exact ⟨b :: items, rest, rfl, .plain hmark hslash hline hitems, hstop⟩

/-- Wherever the reading of a text starts, it ends in one of these ways. -/
theorem exists_ending (quote : Quote) (text : String) (i : Nat) : ∃ items rest ending,
    (Bytes.ofText text).drop i = items ++ rest ∧ Items quote items ∧ Ends quote rest ending := by
  obtain ⟨items, rest, heq, hitems, hstop⟩ := exists_items quote ((Bytes.ofText text).drop i)
  refine ⟨items, rest, ?_⟩
  rcases hstop with rfl | ⟨b, after, rfl, rfl | rfl | ⟨rfl, hnone⟩⟩
  · exact ⟨.unterminated, heq, hitems, .finish⟩
  · exact ⟨.closed, heq, hitems, .mark⟩
  · exact ⟨.unterminated, heq, hitems, .lineFeed⟩
  · by_cases hne : after = []
    · subst hne
      exact ⟨.unterminated, heq, hitems, .backslash⟩
    · have hslash : (Bytes.ofText text).drop (i + items.length) = of '\\' :: after := by
        rw [← List.drop_drop, heq, List.drop_left]
      obtain ⟨c, behind, rfl⟩ := Bytes.exists_char hslash (by decide) hne
      exact ⟨.invalidEscape c, heq, hitems, .invalid hnone⟩

end Quoted

namespace Scanner
open Quoted

/-- Where a quotation mark stands, the scanner takes in items up to where none stands any more. The
literal is closed there, or has no end, or goes on with an escape that is none. The source has less
than 4 GiB, and so the offsets in the answer have 32 bits. -/
theorem next_at_quote {text : String} {s : Scanner} {quote : Quote}
    (hsize : (Bytes.ofText text).length < Nat.pow 2 32) (hsource : s.source = Bytes.ofText text)
    (hquote : quote = doubleQuote ∨ quote = singleQuote)
    (hmark : (Bytes.ofText text)[s.position]? = some quote.mark) :
    (∃ items rest ending, (Bytes.ofText text).drop (s.position + 1) = items ++ rest ∧
      Items quote items ∧ Ends quote rest ending) ∧
    ∀ items rest, (Bytes.ofText text).drop (s.position + 1) = items ++ rest → Items quote items →
      (Ends quote rest .closed → s.next.1 = .ok quote.kind ∧
        Span.FitsWords ⟨s.position, s.position + items.length + 2⟩ ∧
        ∃ found, Bytes.ofText found = quote.mark :: items ++ [quote.mark] ∧
          s.next.2.token quote.kind =
            ⟨quote.kind, ⟨s.position, s.position + items.length + 2⟩, found, .source⟩) ∧
      (Ends quote rest .unterminated → s.position < Nat.pow 2 32 ∧
        s.next.1 = .error (.lexical ⟨quote.unterminated, s.position⟩)) ∧
      ∀ c, Ends quote rest (.invalidEscape c) → s.position + 1 + items.length < Nat.pow 2 32 ∧
        s.next.1 = .error (.lexical ⟨.invalidEscape c, s.position + 1 + items.length⟩) := by
  obtain ⟨hlt, hget⟩ := List.getElem?_eq_some_iff.mp hmark
  have hdrop := List.drop_eq_getElem_cons hlt
  rw [hget] at hdrop
  have hrest : s.place.rest = _ := (place_rest hsource).trans hdrop
  refine ⟨exists_ending quote text (s.position + 1), fun items rest heq hitems => ?_⟩
  have hclear : Trivia.Clear (quote.mark :: (items ++ rest)) := by
    apply Trivia.clear_cons <;> rcases hquote with rfl | rfl <;> decide
  rw [heq] at hrest
  have hread : Lexeme.read quote.mark (items ++ rest) = body quote (1 + items.length) rest :=
    (Lexeme.read_eq_iff.mpr (.quoted hquote rfl rfl)).trans (hitems.body_append 1 rest)
  have hnext := next_of_clear hrest hclear
  rw [hread] at hnext
  refine ⟨fun hends => ?_, fun hends => ?_, fun c hends => ?_⟩
  · have hbody := hends.body_eq hquote (1 + items.length)
    cases hends with
    | @mark after =>
      have hword : quote.mark :: (items ++ quote.mark :: after) =
          quote.mark :: items ++ [quote.mark] ++ after := by simp
      have hlength : (quote.mark :: items ++ [quote.mark]).length = 1 + items.length + 1 := by
        simp [Nat.add_comm 1]
      have hreads : Lexeme.Reads quote.kind (quote.mark :: items ++ [quote.mark]) after :=
        ⟨_, _, hword.symm, by rw [hread, hbody, hlength]⟩
      obtain ⟨hkind, htoken⟩ :=
        token_of_reads hsource (hrest.trans hword) (hword ▸ hclear) hreads
      have hfits : Span.FitsWords ⟨s.position, s.position + _⟩ :=
        .of_drop hsize (hdrop.trans (heq ▸ hword)) hreads.ne_nil
      rw [hlength, Nat.add_comm 1] at htoken hfits
      exact ⟨hkind, hfits, htoken⟩
  · obtain ⟨n, hbody⟩ := hends.body_eq hquote (1 + items.length)
    rw [hbody] at hnext
    exact ⟨Nat.lt_trans hlt hsize, congrArg Prod.fst hnext⟩
  · obtain ⟨n, hbody⟩ := hends.body_eq hquote (1 + items.length)
    have hinside := congrArg List.length heq
    rw [List.length_drop, List.length_append] at hinside
    have hoffset : s.position + 1 + items.length ≤ (Bytes.ofText text).length := by omega
    rw [hbody] at hnext
    refine ⟨Nat.lt_of_le_of_lt hoffset hsize, ?_⟩
    rw [Nat.add_assoc]
    exact congrArg Prod.fst hnext

theorem next_at_quote_invalidEscape :
    let s := (ofText "(\"a\\uu0041\\é\")").seek 1
    (Bytes.ofText "(\"a\\uu0041\\é\")").length < Nat.pow 2 32 ∧
      (Bytes.ofText "(\"a\\uu0041\\é\")")[s.position]? = some doubleQuote.mark ∧
      Ends doubleQuote (Bytes.ofText "\\é\")") (.invalidEscape 'é') ∧
      s.next.1 = .error (.lexical ⟨.invalidEscape 'é', 10⟩) := by
  intro s
  have hsize : (Bytes.ofText "(\"a\\uu0041\\é\")").length < Nat.pow 2 32 := by decide +kernel
  have hmark : (Bytes.ofText "(\"a\\uu0041\\é\")")[s.position]? = some doubleQuote.mark := by
    decide +kernel
  have hescape : IsEscape (Bytes.ofText "uu0041") :=
    @IsEscape.unicode 1 (Bytes.ofText "0041") (by decide) (by decide +kernel)
  have hitems : Items doubleQuote (Bytes.ofText "a\\uu0041") :=
    .plain (by decide) (by decide) (by decide) (.escape hescape .nil)
  have hends : Ends doubleQuote (Bytes.ofText "\\é\")") (.invalidEscape 'é') := by
    refine @Ends.invalid doubleQuote 'é' (Bytes.ofText "\")") fun e behind heq he => ?_
    have hvalid := escape_append_of_isEscape he behind
    have hinvalid : escape (Bytes.ofText (.singleton 'é') ++ Bytes.ofText "\")") =
      .invalid 'é' 0 := by decide +kernel
    rw [heq] at hinvalid
    cases hinvalid.symm.trans hvalid
  obtain ⟨-, hnext⟩ := next_at_quote (s := s) hsize rfl (.inl rfl) hmark
  have hsplit : (Bytes.ofText "(\"a\\uu0041\\é\")").drop (s.position + 1) =
      Bytes.ofText "a\\uu0041" ++ Bytes.ofText "\\é\")" := by decide +kernel
  exact ⟨hsize, hmark, hends, ((hnext _ _ hsplit hitems).2.2 'é' hends).2⟩

end Scanner
end SyntaxRecovery
