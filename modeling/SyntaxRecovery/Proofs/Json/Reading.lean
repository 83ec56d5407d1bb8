import SyntaxRecovery.Json.Reader
import SyntaxRecovery.Proofs.Json.Lexing

/-! Written JSON is read as the value it was written for. Both writers spell the symbols of a value,
and the reader makes the value of its symbols wherever it stands. -/
namespace SyntaxRecovery.Json
variable {value : Json} {levels depth : Nat} {written : String} {before : List Symbol}

/-- A value with at most `levels` containers around each other and nothing in it that reading could
not tell from something else. -/
inductive Writable : Nat → Json → Prop
  | null {levels : Nat} : Writable levels .null
  | bool {levels : Nat} (value : Bool) : Writable levels (.bool value)
  | int {levels n : Nat} (h : n < Nat.pow 2 64) : Writable levels (.int n)
  | str {levels : Nat} (text : String) : Writable levels (.str text)
  | arr {levels : Nat} {items : List Json} (h : ∀ item ∈ items, Writable levels item) :
    Writable (levels + 1) (.arr items)
  | obj {levels : Nat} {members : List (String × Json)}
    (h : ∀ member ∈ members, Writable levels member.2) : Writable (levels + 1) (.obj members)

mutual

/-- The symbols that a value is written with. -/
def symbols : Json → List Symbol
  | .arr items => .openArray :: (itemSymbols true items ++ [.closeArray])
  | .obj members => .openObject :: (memberSymbols true members ++ [.closeObject])
  | .str text => [.text (some text)]
  | value => [.word value]

/-- Every item but the first has a comma before it. -/
def itemSymbols (first : Bool) : List Json → List Symbol
  | [] => []
  | item :: rest => (if first then [] else [.comma]) ++ (item.symbols ++ itemSymbols false rest)

def memberSymbols (first : Bool) : List (String × Json) → List Symbol
  | [] => []
  | (name, value) :: rest => (if first then [] else [.comma]) ++
    (.text (some name) :: .colon :: (value.symbols ++ memberSymbols false rest))

end

section Writing

/-- Where a container goes on: right after its opening mark, or after a value. -/
def Due (first : Bool) (written : String) (symbols : List Symbol) : Prop :=
  if first then Spells written symbols else Ends written symbols

theorem Due.ends {first : Bool} (h : Due first written before) : Ends written before := by
  cases first with
  | true => exact Spells.ends h
  | false => exact h

theorem Ends.due (h : Ends written before) : Due false written before := h

/-- A comma, where one is due. -/
theorem Due.comma {first : Bool} (h : Due first written before) :
    Spells (if first then written else written ++ ",")
      (before ++ if first then [] else [.comma]) := by
  cases first with
  | true =>
    rw [if_pos rfl, if_pos rfl, List.append_nil]
    exact h
  | false => exact Ends.mark h (by simp [marks])

theorem wordValue?_toString {n : Nat} (h : n < Nat.pow 2 64) :
    Lexer.wordValue? (toString n) = some (.int n) := by
  have hword (word : String) (hword : ¬ word.toList.all (·.isDigit)) : toString n ≠ word := by
    rintro rfl
    rw [Nat.toString_eq_ofList_toDigits, String.toList_ofList, List.all_eq_true] at hword
    exact hword (Number.isDigit_toDigits n)
  rw [Lexer.wordValue?, if_neg (hword "null" (by decide)), if_neg (hword "true" (by decide)),
    if_neg (hword "false" (by decide)), Number.read?_toString h]

theorem Spells.number (h : Spells written before) {n : Nat} (hn : n < Nat.pow 2 64) :
    Ends (written ++ toString (n : Int)) (before ++ [.word (.int n)]) := by
  have htext : (toString (n : Int)).toList = Nat.toDigits 10 n := by
    rw [show toString (n : Int) = toString n from rfl, Nat.toString_eq_ofList_toDigits,
      String.toList_ofList]
  obtain ⟨c, cs, hdigits⟩ := List.exists_cons_of_ne_nil (@Nat.toDigits_ne_nil n 10)
  refine h.word (htext.trans hdigits) (List.all_eq_true.mpr fun c hc => ?_) (wordValue?_toString hn)
  have hdigit := Number.isDigit_toDigits n c (htext ▸ hc)
  simp [Lexer.inWord, Char.isAlphanum, hdigit]

/-- Values that are no containers are one word or one text. -/
theorem Writable.scalar (h : value.Writable 0) (hwritten : Spells written before) :
    Ends (written ++ scalarText value) (before ++ value.symbols) := by
  cases h with
  | null => exact hwritten.word rfl rfl rfl
  | bool value => cases value with
    | true => exact hwritten.word rfl rfl rfl
    | false => exact hwritten.word rfl rfl rfl
  | int hn => exact hwritten.number hn
  | str text => exact (hwritten.ends.string text).ends

/-- What `write` adds for the value spells the symbols of the value. -/
def SpelledBy (write : String → Json → String) (value : Json) : Prop :=
  ∀ {written : String} {before : List Symbol}, Spells written before →
    Ends (write written value) (before ++ value.symbols)

theorem compactItems_ends {items : List Json} (hitems : ∀ item ∈ items, SpelledBy writeCompact item)
    {first : Bool} (hdue : Due first written before) :
    Ends (compactItems written first items) (before ++ itemSymbols first items) := by
  induction items generalizing first written before with
  | nil => simpa [compactItems, itemSymbols] using hdue.ends
  | cons item items ih =>
    obtain ⟨hitem, hitems⟩ := List.forall_mem_cons.mp hitems
    rw [compactItems, itemSymbols, ← List.append_assoc, ← List.append_assoc]
    exact ih hitems (hitem hdue.comma).due

/-- The name of a member comes before its value. -/
theorem Spells.name (h : Spells written before) (name : String) :
    Spells (written ++ writeString name ++ ":") (before ++ [.text (some name), .colon]) := by
  have hcolon := (h.ends.string name).ends.mark (show (":", Symbol.colon) ∈ marks by simp [marks])
  rwa [List.append_assoc] at hcolon

theorem compactMembers_ends {members : List (String × Json)}
    (hmembers : ∀ member ∈ members, SpelledBy writeCompact member.2) {first : Bool}
    (hdue : Due first written before) :
    Ends (compactMembers written first members) (before ++ memberSymbols first members) := by
  induction members generalizing first written before with
  | nil => simpa [compactMembers, memberSymbols] using hdue.ends
  | cons member members ih =>
    obtain ⟨hmember, hmembers⟩ := List.forall_mem_cons.mp hmembers
    have hrest := ih hmembers (hmember (hdue.comma.name member.1)).due
    simpa [compactMembers, memberSymbols] using hrest

theorem Writable.writeCompact (h : value.Writable levels) : SpelledBy writeCompact value := by
  induction h with
  | null => exact Writable.null.scalar
  | bool value => exact (Writable.bool value).scalar
  | int hn => exact (Writable.int hn).scalar
  | str text => exact (Writable.str text).scalar
  | @arr levels items _ ih =>
    intro written before hwritten
    have hopen : Due true (written ++ "[") (before ++ [.openArray]) :=
      hwritten.ends.mark (by simp [marks])
    have hclose := (compactItems_ends ih hopen).mark
      (show ("]", Symbol.closeArray) ∈ marks by simp [marks])
    simpa [Json.writeCompact, symbols] using hclose.ends
  | @obj levels members _ ih =>
    intro written before hwritten
    have hopen : Due true (written ++ opened) (before ++ [.openObject]) :=
      hwritten.ends.mark (by simp [marks])
    have hclose := (compactMembers_ends ih hopen).mark
      (show (closed, Symbol.closeObject) ∈ marks by simp [marks])
    simpa [Json.writeCompact, symbols] using hclose.ends

theorem prettyItems_ends {items : List Json}
    (hitems : ∀ item ∈ items, SpelledBy (writePretty (depth + 1)) item) {first : Bool}
    (hdue : Due first written before) :
    Ends (prettyItems depth written first items) (before ++ itemSymbols first items) := by
  induction items generalizing first written before with
  | nil => simpa [prettyItems, itemSymbols] using hdue.ends
  | cons item items ih =>
    obtain ⟨hitem, hitems⟩ := List.forall_mem_cons.mp hitems
    rw [prettyItems, itemSymbols, ← List.append_assoc, ← List.append_assoc]
    exact ih hitems (hitem (hdue.comma.ends.newLine (depth + 1))).due

theorem prettyMembers_ends {members : List (String × Json)}
    (hmembers : ∀ member ∈ members, SpelledBy (writePretty (depth + 1)) member.2) {first : Bool}
    (hdue : Due first written before) :
    Ends (prettyMembers depth written first members) (before ++ memberSymbols first members) := by
  induction members generalizing first written before with
  | nil => simpa [prettyMembers, memberSymbols] using hdue.ends
  | cons member members ih =>
    obtain ⟨hmember, hmembers⟩ := List.forall_mem_cons.mp hmembers
    have hname := (hdue.comma.ends.newLine (depth + 1)).name member.1
    have hblank := hname.ends.blank (show " ".toList = [' '] from rfl) (by simp)
    have hrest := ih hmembers (hmember hblank).due
    have hcolon (written : String) : written ++ ":" ++ " " = written ++ ": " := String.append_assoc
    simpa [prettyMembers, memberSymbols, hcolon] using hrest

theorem Writable.writePretty (h : value.Writable levels) (depth : Nat) :
    SpelledBy (writePretty depth) value := by
  induction h generalizing depth with
  | null => exact Writable.null.scalar
  | bool value => exact (Writable.bool value).scalar
  | int hn => exact (Writable.int hn).scalar
  | str text => exact (Writable.str text).scalar
  | @arr levels items _ ih =>
    intro written before hwritten
    have hopen : Due true (written ++ "[") (before ++ [.openArray]) :=
      hwritten.ends.mark (by simp [marks])
    have hitems := prettyItems_ends (fun item hi => ih item hi (depth + 1)) hopen
    have hmark : ("]", Symbol.closeArray) ∈ marks := by simp [marks]
    cases items with
    | nil =>
      have hboth : written ++ "[" ++ "]" = written ++ "[]" := String.append_assoc
      simpa [Json.writePretty, symbols, itemSymbols, hboth] using (hopen.ends.mark hmark).ends
    | cons item items =>
      simpa [Json.writePretty, symbols] using ((hitems.newLine depth).ends.mark hmark).ends
  | @obj levels members _ ih =>
    intro written before hwritten
    have hopen : Due true (written ++ opened) (before ++ [.openObject]) :=
      hwritten.ends.mark (by simp [marks])
    have hmembers := prettyMembers_ends (fun member hm => ih member hm (depth + 1)) hopen
    have hmark : (closed, Symbol.closeObject) ∈ marks := by simp [marks]
    cases members with
    | nil =>
      simpa [Json.writePretty, symbols, memberSymbols] using (hopen.ends.mark hmark).ends
    | cons member members =>
      simpa [Json.writePretty, symbols] using ((hmembers.newLine depth).ends.mark hmark).ends

end Writing

section Reading
variable {frames outer : List Frame} {rest : List Symbol}

/-- Where a value is due, the reader takes the symbols of this one for it. -/
def ReadAt (depth : Nat) (value : Json) : Prop :=
  ∀ (frames : List Frame) (rest : List Symbol),
    expectValue depth frames (value.symbols ++ rest) = afterValue depth frames value rest

/-- Behind the opening mark of a list that is not empty its first item is due. -/
theorem expectValue_openArray (value : Json) (frames : List Frame) (rest : List Symbol) :
    expectValue depth frames (.openArray :: (value.symbols ++ rest)) =
      expectValue (depth + 1) (.items [] :: frames) (value.symbols ++ rest) := by
  cases value <;> simp [symbols, expectValue]

/-- Behind a comma in a list the next item is due. A text there is no name, as no colon follows. -/
theorem afterValue_comma (value : Json) (done : List Json) (item : Json)
    (hrest : rest.head? ≠ some .colon) :
    afterValue depth (.items done :: outer) value (.comma :: (item.symbols ++ rest)) =
      expectValue depth (.items (value :: done) :: outer) (item.symbols ++ rest) := by
  cases item with
  | str text =>
    cases rest with
    | nil => simp [symbols, afterValue]
    | cons symbol rest => cases symbol with
      | colon => exact absurd rfl hrest
      | _ => simp [symbols, afterValue]
  | _ => simp [symbols, afterValue]

theorem head?_itemSymbols (items : List Json) (rest : List Symbol) :
    (itemSymbols false items ++ .closeArray :: rest).head? ≠ some .colon := by
  cases items <;> simp [itemSymbols]

/-- The items that are left go to those already read. -/
theorem afterValue_items {items : List Json} (hitems : ∀ item ∈ items, ReadAt depth item)
    (value : Json) (done : List Json) (outer : List Frame) (rest : List Symbol) :
    afterValue depth (.items done :: outer) value (itemSymbols false items ++ .closeArray :: rest) =
      afterValue (depth - 1) outer (within depth (.arr (done.reverse ++ value :: items))) rest := by
  induction items generalizing value done with
  | nil => simp [itemSymbols, afterValue]
  | cons item items ih =>
    obtain ⟨hitem, hitems⟩ := List.forall_mem_cons.mp hitems
    have hrest := ih hitems item (value :: done)
    rw [← hitem, ← afterValue_comma value done item (head?_itemSymbols items rest)] at hrest
    simpa [itemSymbols] using hrest

theorem readAt_arr {items : List Json} (hdepth : depth + 1 ≤ maxDepth)
    (hitems : ∀ item ∈ items, ReadAt (depth + 1) item) : ReadAt depth (.arr items) := by
  intro frames rest
  cases items with
  | nil => simp [symbols, itemSymbols, expectValue, within, hdepth]
  | cons item items =>
    obtain ⟨hitem, hitems⟩ := List.forall_mem_cons.mp hitems
    have hrest := afterValue_items hitems item [] frames rest
    rw [← hitem, ← expectValue_openArray] at hrest
    simpa [symbols, itemSymbols, within, hdepth] using hrest

theorem ofMembers_eq (members : List (String × Json)) :
    ofMembers (members.map fun member => (some member.1, member.2)) = .obj members := by
  have hsome : members.mapM (fun member => some (member.1, member.2)) = some members :=
    List.mapM_pure.trans (congrArg some (List.map_id members))
  rw [ofMembers, List.mapM_map]
  simp only [Function.comp_def, Option.map_some, hsome]

/-- The members that are left go to those already read. -/
theorem afterValue_members {members : List (String × Json)}
    (hmembers : ∀ member ∈ members, ReadAt depth member.2) (value : Json)
    (done : List (String × Json)) (name : String) (outer : List Frame) (rest : List Symbol) :
    afterValue depth
      (.members (done.map fun member => (some member.1, member.2)) (some name) :: outer)
      value (memberSymbols false members ++ .closeObject :: rest) =
      afterValue (depth - 1) outer (within depth (.obj (done.reverse ++ (name, value) :: members)))
        rest := by
  induction members generalizing value done name with
  | nil =>
    have hobject := ofMembers_eq (done.reverse ++ [(name, value)])
    rw [List.map_append, List.map_reverse, List.map_singleton] at hobject
    simp [memberSymbols, afterValue, hobject]
  | cons member members ih =>
    obtain ⟨hmember, hmembers⟩ := List.forall_mem_cons.mp hmembers
    have hrest := ih hmembers member.2 ((name, value) :: done) member.1
    rw [← hmember] at hrest
    simpa [memberSymbols, afterValue] using hrest

theorem readAt_obj {members : List (String × Json)} (hdepth : depth + 1 ≤ maxDepth)
    (hmembers : ∀ member ∈ members, ReadAt (depth + 1) member.2) : ReadAt depth (.obj members) := by
  intro frames rest
  cases members with
  | nil => simp [symbols, memberSymbols, expectValue, within, hdepth]
  | cons member members =>
    obtain ⟨hmember, hmembers⟩ := List.forall_mem_cons.mp hmembers
    have hrest := afterValue_members hmembers member.2 [] member.1 frames rest
    rw [← hmember] at hrest
    simpa [symbols, memberSymbols, expectValue, within, hdepth] using hrest

theorem Writable.readAt (h : value.Writable levels) (hdepth : depth + levels ≤ maxDepth) :
    ReadAt depth value := by
  induction h generalizing depth with
  | null | bool | int | str => exact fun _ _ => rfl
  | @arr levels items _ ih =>
    exact readAt_arr (by omega) fun item hi => ih item hi (by omega)
  | @obj levels members _ ih =>
    exact readAt_obj (by omega) fun member hm => ih member hm (by omega)

/-- A text that spells a value that can be written is read as this value. -/
theorem Writable.parse?_eq (h : value.Writable maxDepth) (hspells : Ends written value.symbols) :
    parse? written = some value := by
  have hread := h.readAt (Nat.zero_add maxDepth).le [] []
  rw [parse?, hspells.symbols?_eq, Option.bind_some, ← List.append_nil value.symbols, hread]
  simp [afterValue]

end Reading

/-- What the compact writer writes is read as it was. -/
theorem parse?_compact (h : value.Writable maxDepth) : parse? value.compact = some value :=
  h.parse?_eq (h.writeCompact spells_empty)

/-- What the writer with lines writes is read as it was. -/
theorem parse?_pretty (h : value.Writable maxDepth) : parse? value.pretty = some value :=
  h.parse?_eq (h.writePretty 0 spells_empty)

end SyntaxRecovery.Json
