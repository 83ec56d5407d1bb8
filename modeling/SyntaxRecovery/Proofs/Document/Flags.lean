import Mathlib.Data.List.Forall2
import Mathlib.Data.List.TakeWhile
import SyntaxRecovery.Tree.Flags

/-! The written form of a set of node properties gives the set back, with the bits that have no
name. -/
namespace SyntaxRecovery.NodeFlags

/-- A piece that neither a separator nor blanks can be taken for. -/
def IsPlain (cs : List Char) : Prop := ∀ c ∈ cs, c ≠ separator ∧ isSpace c = false

instance (cs : List Char) : Decidable (IsPlain cs) := List.decidableBAll _ cs

theorem mem_dropWhile {c : Char} {cs : List Char} (hc : c ∈ cs) (hspace : isSpace c = false) :
    c ∈ cs.dropWhile isSpace := by
  rw [← @List.takeWhile_append_dropWhile _ isSpace cs, List.mem_append] at hc
  refine hc.resolve_left fun htake => ?_
  rw [List.mem_takeWhile_imp htake] at hspace
  cases hspace

theorem mem_trim {c : Char} {cs : List Char} (hc : c ∈ cs) (hspace : isSpace c = false) :
    c ∈ trim cs := by
  rw [trim, List.mem_reverse]
  exact mem_dropWhile (List.mem_reverse.mpr (mem_dropWhile hc hspace)) hspace

theorem dropWhile_isSpace {cs : List Char} (h : IsPlain cs) : cs.dropWhile isSpace = cs := by
  cases cs with
  | nil => rfl
  | cons c cs => rw [List.dropWhile_cons_of_neg (by simp [(h c List.mem_cons_self).2])]

theorem trim_of_isPlain {cs : List Char} (h : IsPlain cs) : trim cs = cs := by
  have hreverse : IsPlain cs.reverse := fun c hc => h c (List.mem_reverse.mp hc)
  rw [trim, dropWhile_isSpace h, dropWhile_isSpace hreverse, List.reverse_reverse]

theorem trim_append_space {cs : List Char} (h : IsPlain cs) : trim (cs ++ [' ']) = cs := by
  cases cs with
  | nil => decide
  | cons c cs =>
    have hc : ¬ isSpace c := by simp [(h c List.mem_cons_self).2]
    have hreverse : IsPlain (c :: cs).reverse := fun other ho => h other (List.mem_reverse.mp ho)
    rw [trim, List.cons_append, List.dropWhile_cons_of_neg hc, ← List.cons_append,
      List.reverse_append, List.reverse_singleton, List.singleton_append,
      List.dropWhile_cons_of_pos (by decide), dropWhile_isSpace hreverse, List.reverse_reverse]

theorem trim_blanks_append (count : Nat) (cs : List Char) :
    trim (List.replicate count ' ' ++ cs) = trim cs := by
  induction count with
  | zero => rfl
  | succ count ih =>
    rw [← ih, List.replicate_succ, List.cons_append, trim, List.dropWhile_cons_of_pos (by decide),
      trim]

theorem separator_not_mem_append {cs : List Char} (h : IsPlain cs) (count : Nat) :
    separator ∉ List.replicate count ' ' ++ cs := by
  rw [List.mem_append, not_or]
  refine ⟨fun hmem => ?_, fun hmem => (h separator hmem).1 rfl⟩
  exact absurd (List.eq_of_mem_replicate hmem) (by decide)

/-- Pieces with separators and blanks between them come apart again. -/
theorem map_trim_splitOn {pieces : List (List Char)} (hpieces : pieces ≠ [])
    (h : ∀ piece ∈ pieces, IsPlain piece) (count : Nat) :
    ((List.replicate count ' ' ++
      [' ', separator, ' '].intercalate pieces).splitOn separator).map trim = pieces := by
  induction pieces generalizing count with
  | nil => exact absurd rfl hpieces
  | cons piece rest ih =>
    obtain ⟨hpiece, hrest⟩ := List.forall_mem_cons.mp h
    cases rest with
    | nil =>
      rw [List.intercalate_singleton,
        List.splitOn_eq_singleton (separator_not_mem_append hpiece count),
        List.map_singleton, trim_blanks_append, trim_of_isPlain hpiece]
    | cons next rest =>
      have htext :
          List.replicate count ' ' ++ [' ', separator, ' '].intercalate (piece :: next :: rest) =
          (List.replicate count ' ' ++ (piece ++ [' '])) ++
            separator :: (List.replicate 1 ' ' ++ [' ', separator,
              ' '].intercalate (next :: rest)) := by
        simp [List.intercalate_cons_cons]
      have hnot : separator ∉ List.replicate count ' ' ++ (piece ++ [' ']) := by
        rw [← List.append_assoc, List.mem_append, not_or]
        exact ⟨separator_not_mem_append hpiece count, by decide⟩
      rw [htext, List.splitOn_append_cons_self_of_not_mem hnot, List.map_cons, trim_blanks_append,
        trim_append_space hpiece, ih (List.cons_ne_nil _ _) hrest 1]

/-- The pieces of the written form. -/
def pieces (flags : NodeFlags) : List String :=
  (named.filter fun (_, flag) => flags.contains flag).map (·.1) ++
    if flags.unnamed = 0 then [] else ["0x" ++ String.ofList (Nat.toDigits 16 flags.unnamed.toNat)]

/-- The sets that the pieces stand for. -/
def parts (flags : NodeFlags) : List NodeFlags :=
  (named.filter fun (_, flag) => flags.contains flag).map (·.2) ++
    if flags.unnamed = 0 then [] else [⟨flags.unnamed⟩]

theorem toList_text (flags : NodeFlags) :
    flags.text.toList = [' ', separator, ' '].intercalate (flags.pieces.map String.toList) := by
  have htext : flags.text = " | ".intercalate flags.pieces := rfl
  rw [htext, String.toList_intercalate]
  rfl

theorem named_plain : ∀ entry ∈ named, IsPlain entry.1.toList ∧ entry.1.toList ≠ [] ∧
    ofPiece? entry.1.toList = some entry.2 := by
  decide +kernel

theorem hexadecimal_plain : ∀ n < 256, IsPlain ('0' :: 'x' :: Nat.toDigits 16 n) ∧
    ofPiece? ('0' :: 'x' :: Nat.toDigits 16 n) = some ⟨n.toUInt8⟩ := by
  decide +kernel

theorem union_parts : ∀ n < 256, (parts ⟨n.toUInt8⟩).foldl union empty = ⟨n.toUInt8⟩ := by
  decide +kernel

/-- Every piece stands for its part. -/
theorem forall₂_pieces (flags : NodeFlags) : List.Forall₂
    (fun piece part => IsPlain piece ∧ piece ≠ [] ∧ ofPiece? piece = some part)
    (flags.pieces.map String.toList) flags.parts := by
  rw [pieces, parts, List.map_append]
  refine List.rel_append ?_ ?_
  · rw [List.map_map, List.forall₂_map_left_iff, List.forall₂_map_right_iff, List.forall₂_same]
    exact fun entry hentry => named_plain entry (List.mem_of_mem_filter hentry)
  · split
    · exact .nil
    · have hbits : flags.unnamed.toNat < 256 := flags.unnamed.toNat_lt
      have hpiece : ("0x" ++ String.ofList (Nat.toDigits 16 flags.unnamed.toNat)).toList =
          '0' :: 'x' :: Nat.toDigits 16 flags.unnamed.toNat := by
        simp
      obtain ⟨hplain, hread⟩ := hexadecimal_plain _ hbits
      rw [Nat.toUInt8_eq, UInt8.ofNat_toNat] at hread
      refine .cons ?_ .nil
      rw [hpiece]
      exact ⟨hplain, List.cons_ne_nil _ _, hread⟩

/-- Pieces are read as the union of what they stand for. -/
theorem ofText?_of_forall₂ {text : String} {pieces : List (List Char)} {parts : List NodeFlags}
    (h : List.Forall₂ (fun piece part => IsPlain piece ∧ piece ≠ [] ∧ ofPiece? piece = some part)
      pieces parts)
    (htext : text.toList = [' ', separator, ' '].intercalate pieces) :
    ofText? text = some (parts.foldl union empty) := by
  have hplain : ∀ piece ∈ pieces, IsPlain piece := by
    clear htext
    induction h with
    | nil => simp
    | cons hpiece _ ih => exact List.forall_mem_cons.mpr ⟨hpiece.1, ih⟩
  have hread : pieces.mapM ofPiece? = some parts := by
    clear htext hplain
    induction h with
    | nil => rfl
    | cons hpiece _ ih => simp [List.mapM_cons, hpiece.2.2, ih]
  cases h with
  | nil => simp [ofText?, htext, trim]
  | @cons piece part rest parts hpiece _ =>
    obtain ⟨c, cs, rfl⟩ := List.exists_cons_of_ne_nil hpiece.2.1
    have hc : c ∈ text.toList := by
      rw [htext]
      cases rest <;> simp [List.intercalate_cons_cons]
    have hempty : ¬ (trim text.toList).isEmpty := by
      rw [List.isEmpty_iff]
      exact List.ne_nil_of_mem (mem_trim hc (hpiece.1 c List.mem_cons_self).2)
    have hsplit := map_trim_splitOn (List.cons_ne_nil _ _) hplain 0
    rw [List.replicate_zero, List.nil_append, ← htext] at hsplit
    rw [← hsplit, List.mapM_map] at hread
    rw [ofText?, if_neg hempty]
    change (List.mapM (ofPiece? ∘ trim) _).bind _ = _
    rw [hread]
    rfl

/-- A set of node properties is read as it is written. -/
theorem ofText?_text (flags : NodeFlags) : ofText? flags.text = some flags := by
  have hunion := union_parts flags.bits.toNat flags.bits.toNat_lt
  rw [Nat.toUInt8_eq, UInt8.ofNat_toNat] at hunion
  exact (ofText?_of_forall₂ flags.forall₂_pieces flags.toList_text).trans (congrArg some hunion)

end SyntaxRecovery.NodeFlags
