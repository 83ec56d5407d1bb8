import SyntaxRecovery.Proofs.Propagation.Exchange
import SyntaxRecovery.Proofs.Stream.Grouping

/-! One insertion recorded in two pieces. The corrected stream gives the tokens of both in recording
order, as it gives those of the whole. The nodes are offered the later piece first, so that to them
the pieces are an insertion with its tokens in another order. -/
namespace SyntaxRecovery

/-- The insertions `first` and `second` are the two pieces of `edit`. -/
structure Insertion.Splits (edit first second : Insertion) : Prop where
  tokens_eq : edit.tokens = first.tokens ++ second.tokens
  first_anchor : first.anchor = edit.anchor
  second_anchor : second.anchor = edit.anchor

namespace Insertion.Splits
variable {log : EditLog} {before after : List Insertion} {edit first second : Insertion}
  {ends : Nat → List TokenKind → Prop}

theorem regroups (h : edit.Splits first second) :
    EditLog.Regroups { log with insertions := before ++ edit :: after }
      { log with insertions := before ++ first :: second :: after } where
  inserted_eq place := by
    simp only [EditLog.insertedAt, List.filter_append, List.filter_cons, h.first_anchor,
      h.second_anchor]
    split
    · simp only [List.flatMap_append, List.flatMap_cons, h.tokens_eq, List.map_append,
        List.append_assoc]
    · rfl
  replacements_eq := rfl
  removals_eq := rfl

/-- The pieces make the offers of an insertion with the tokens of the second before those of the
first. -/
theorem ofLog_eq (h : edit.Splits second first) :
    Offer.ofLog { log with insertions := before ++ first :: second :: after } =
      Offer.ofLog { log with insertions := before ++ edit :: after } := by
  simp only [Offer.ofLog, List.reverse_append, List.reverse_cons, List.flatMap_append,
    List.flatMap_cons, List.flatMap_nil, h.tokens_eq, h.first_anchor, h.second_anchor,
    List.map_append, List.append_assoc, List.append_nil]

theorem forall₂_sameAt {offset : Nat} {kinds others : List TokenKind}
    (hlength : kinds.length = others.length) (h : ∀ expected, ends (offset + 1) expected →
      (kinds.map fun kind => decide (kind ∈ expected)) =
        others.map fun kind => decide (kind ∈ expected)) :
    List.Forall₂ (SameAt ends offset) kinds others := by
  apply List.forall₂_iff_get.mpr
  refine ⟨hlength, fun i hi hi' expected he => ?_⟩
  have hget := congrArg (·[i]?) (h expected he)
  simp only [List.getElem?_map, List.getElem?_eq_getElem hi, List.getElem?_eq_getElem hi',
    Option.map_some, Option.some.injEq, decide_eq_decide] at hget
  exact hget.symm

theorem exchanges (h : edit.Splits first second)
    (hsame : ∀ expected, ends (edit.anchor + 1) expected →
      ((first.tokens ++ second.tokens).map fun kind => decide (kind ∈ expected)) =
        (second.tokens ++ first.tokens).map fun kind => decide (kind ∈ expected)) :
    EditLog.Exchanges ends { log with insertions := before ++ edit :: after }
      { log with insertions := before ++ first :: second :: after } where
  waiting offset := by
    have hrefl (kinds : List TokenKind) : List.Forall₂ (SameAt ends offset) kinds kinds :=
      List.forall₂_same.mpr fun kind _ expected _ => Iff.rfl
    simp only [Claims.ofLog, List.reverse_append, List.reverse_cons, List.filter_append,
      List.filter_cons, List.filter_nil, h.first_anchor, h.second_anchor, List.flatMap_append,
      List.append_assoc]
    by_cases hoffset : edit.anchor = offset
    · subst hoffset
      have hpieces : List.Forall₂ (SameAt ends edit.anchor) (first.tokens ++ second.tokens)
          (second.tokens ++ first.tokens) :=
        forall₂_sameAt (by rw [List.length_append, List.length_append, Nat.add_comm]) hsame
      simp only [decide_true, if_true, List.flatMap_cons, List.flatMap_nil, List.append_nil,
        h.tokens_eq]
      rw [← List.append_assoc second.tokens]
      exact List.rel_append (hrefl _) (List.rel_append hpieces (hrefl _))
    · simp only [hoffset, decide_false]
      exact hrefl _
  stretches_eq := rfl

end Insertion.Splits

/-- Propagation sees of a log what is on offer and the stretches. -/
theorem propagate_congr {log other : EditLog} (hoffers : Offer.ofLog other = Offer.ofLog log)
    (hstretches : Stretch.ofLog other = Stretch.ofLog log) (tree : Tree)
    (diagnostics : List Diagnostic) :
    propagate tree diagnostics other = propagate tree diagnostics log := by
  have hstart : Attribution.start other diagnostics = Attribution.start log diagnostics := by
    simp only [Attribution.start, hoffers, hstretches]
  simp only [propagate, hstart]

/-- An insertion that is recorded in two pieces gives the same corrected tokens. Propagation comes
to what it comes to for the tokens of the second piece before those of the first. That is the same
as for the whole where each node that ends on the pieces, and that the walk leaves in a block, takes
the tokens in either order for the same, as where it takes all of them or none. -/
theorem verdict_of_split {tree : Tree} {log : EditLog} {before after : List Insertion}
    {edit first second : Insertion} (hwf : tree.WellFormed)
    (hroot : ∀ id ∈ tree.root, id < tree.size)
    (h : edit.Splits first second) (text : String) (diagnostics : List Diagnostic) :
    let whole : EditLog := { log with insertions := before ++ edit :: after }
    let split : EditLog := { log with insertions := before ++ first :: second :: after }
    (CorrectedStream.ofText text split).tokens.1 = (CorrectedStream.ofText text whole).tokens.1 ∧
      ∃ tree' diagnostics', propagate tree diagnostics split = some (tree', diagnostics') ∧
        (∀ swapped : Insertion, swapped.Splits second first →
          propagate tree diagnostics { log with insertions := before ++ swapped :: after } =
            some (tree', diagnostics')) ∧
        ((∀ expected, tree.Expects whole (edit.anchor + 1) expected →
          ((first.tokens ++ second.tokens).map fun kind => decide (kind ∈ expected)) =
            (second.tokens ++ first.tokens).map fun kind => decide (kind ∈ expected)) →
          propagate tree diagnostics whole = some (tree', diagnostics')) := by
  intro whole split
  obtain ⟨tree', diagnostics', hsplit⟩ := exists_propagate hwf hroot diagnostics split
  refine ⟨CorrectedStream.tokens_ofText_regroups h.regroups text, tree', diagnostics', hsplit,
    ?_, ?_⟩
  · intro swapped hswapped
    rw [← hsplit]
    exact (propagate_congr hswapped.ofLog_eq rfl tree diagnostics).symm
  · intro hsame
    rw [← hsplit]
    exact (propagate_exchange hwf hroot (h.exchanges hsame) diagnostics).symm

/-- Two operators behind `f(`, in one insertion and in two. -/
def operators : Insertion := ⟨.plus, [.star], 3, none, false⟩

/-- Neither the call nor its statement ends with an operator, so that nothing depends on which comes
first. -/
theorem verdict_of_split_operators :
    brokenCall.WellFormed ∧
      operators.Splits ⟨.plus, [], 3, none, false⟩ ⟨.star, [], 3, none, false⟩ ∧
      (CorrectedStream.ofText "{ f( }" { insertions := [⟨.plus, [], 3, none, false⟩,
          ⟨.star, [], 3, none, false⟩] }).tokens.1 =
        (CorrectedStream.ofText "{ f( }" { insertions := [operators] }).tokens.1 ∧
      ∃ tree' diagnostics', propagate brokenCall [] { insertions := [⟨.plus, [], 3, none, false⟩,
          ⟨.star, [], 3, none, false⟩] } = some (tree', diagnostics') ∧
        propagate brokenCall [] { insertions := [operators] } = some (tree', diagnostics') ∧
        tree'.recoveredNodes = {1, 2, 3} := by
  have hlink : Tree.link brokenCall.nodes brokenCall.root = .ok brokenCall := by decide +kernel
  have hwf := Tree.wellFormed_of_link hlink
  have hsplits : operators.Splits ⟨.plus, [], 3, none, false⟩ ⟨.star, [], 3, none, false⟩ :=
    ⟨rfl, rfl, rfl⟩
  obtain ⟨htokens, tree', diagnostics', hsplit, -, hwhole⟩ :=
    @verdict_of_split brokenCall {} [] [] operators _ _ hwf (Tree.root_lt_size_of_link hlink)
      hsplits "{ f( }" []
  have hends : ∀ departure ∈ brokenCall.departures { insertions := [operators] },
      ∀ node ∈ brokenCall.node? departure.id, ∀ expected ∈ node.shape.terminators?,
        ([TokenKind.plus, .star].map fun kind => decide (kind ∈ expected)) =
          [TokenKind.star, .plus].map fun kind => decide (kind ∈ expected) := by decide +kernel
  have hflags : (propagate brokenCall [] { insertions := [operators] }).map
      (fun result => result.1.recoveredNodes) = some {1, 2, 3} := by decide +kernel
  have hresult :
      propagate brokenCall [] { insertions := [operators] } = some (tree', diagnostics') :=
    hwhole fun expected ⟨departure, hd, _, node, hnode, _, he⟩ =>
      hends departure hd node hnode expected he
  rw [hresult] at hflags
  exact ⟨hwf, hsplits, htokens, tree', diagnostics', hsplit, hresult, Option.some.inj hflags⟩

/-- A parenthesis and a semicolon complete `f(` and its statement. In one insertion they do so and
no more is flagged. In two, the call is offered the semicolon first, which does not belong to it,
and the block around becomes unreliable as well. -/
theorem split_brokenCall :
    let whole : EditLog := { insertions := [⟨.closeParen, [.semicolon], 3, none, false⟩] }
    let split : EditLog :=
      { insertions := [⟨.closeParen, [], 3, none, false⟩, ⟨.semicolon, [], 3, none, false⟩] }
    brokenCall.WellFormed ∧ Insertion.Splits ⟨.closeParen, [.semicolon], 3, none, false⟩
        ⟨.closeParen, [], 3, none, false⟩ ⟨.semicolon, [], 3, none, false⟩ ∧
      propagate brokenCall [] split ≠ propagate brokenCall [] whole ∧
      (propagate brokenCall [] whole).map (fun result => result.1.recoveredNodes) = some {1, 2} ∧
      (propagate brokenCall [] split).map (fun result => result.1.recoveredNodes) =
        some {1, 2, 3} := by
  intro whole split
  have hlink : Tree.link brokenCall.nodes brokenCall.root = .ok brokenCall := by decide +kernel
  have hwhole : (propagate brokenCall [] whole).map (fun result => result.1.recoveredNodes) =
      some {1, 2} := by decide +kernel
  have hsplit : (propagate brokenCall [] split).map (fun result => result.1.recoveredNodes) =
      some {1, 2, 3} := by decide +kernel
  refine ⟨Tree.wellFormed_of_link hlink, ⟨rfl, rfl, rfl⟩, fun heq => ?_, hwhole, hsplit⟩
  rw [heq, hwhole] at hsplit
  exact absurd hsplit (by decide)

end SyntaxRecovery
