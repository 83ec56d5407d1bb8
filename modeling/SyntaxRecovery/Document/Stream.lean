import SyntaxRecovery.Diagnostic
import SyntaxRecovery.Document.Basic
import SyntaxRecovery.EditLog

/-! The JSON form of tokens, edits and diagnostics. -/
namespace SyntaxRecovery

instance : Coded Span where
  encode span := .obj [("start", encode span.start), ("end", encode span.stop)]
  decode? value := do
    let fields ← value.fields? ["start", "end"]
    return { start := ← fields.required "start", stop := ← fields.required "end" }

instance : Coded Token where
  encode token := .obj
    [("kind", encode token.kind), ("span", encode token.span), ("text", encode token.text),
     ("origin", encode token.origin)]
  decode? value := do
    let fields ← value.fields? ["kind", "span", "text", "origin"]
    return {
      kind := ← fields.required "kind"
      span := ← fields.required "span"
      text := ← fields.required "text"
      origin := ← fields.required "origin" }

instance : Coded RecoveryConfig where
  encode config := .obj
    [("source_level", encode config.sourceLevel), ("extra_excluded", encode config.extraExcluded),
     ("statement_recovery_filter", encode config.completionFilter),
     ("recording", encode config.recording)]
  decode? value := do
    let standard : RecoveryConfig := {}
    let fields ← value.fields?
      ["source_level", "extra_excluded", "statement_recovery_filter", "recording"]
    return {
      sourceLevel := ← fields.orElse "source_level" standard.sourceLevel
      extraExcluded := ← fields.orElse "extra_excluded" standard.extraExcluded
      completionFilter := ← fields.orElse "statement_recovery_filter" standard.completionFilter
      recording := ← fields.orElse "recording" standard.recording }

/-- An empty message is left out. -/
instance : Coded Diagnostic where
  encode diagnostic := .obj
    ([("category", encode diagnostic.category), ("start", encode diagnostic.start),
      ("end", encode diagnostic.last)] ++
      (if diagnostic.message = "" then [] else [("message", encode diagnostic.message)]) ++
      [("used", encode diagnostic.used)])
  decode? value := do
    let fields ← value.fields? ["category", "start", "end", "message", "used"]
    return {
      category := ← fields.required "category"
      start := ← fields.required "start"
      last := ← fields.required "end"
      message := ← fields.orElse "message" ""
      used := ← fields.orElse "used" false }

namespace EditRequest

def encodeFields : EditRequest → List (String × Json)
  | .insert tokens anchor completes =>
    [("edit", .str "insert"), ("tokens", encode tokens), ("anchor", encode anchor),
     ("completes", encode completes)]
  | .insertAhead token index =>
    [("edit", .str "insert_ahead"), ("token", encode token), ("index", encode index)]
  | .replace tokens start last =>
    [("edit", .str "replace"), ("tokens", encode tokens), ("start", encode start),
     ("end", encode last)]
  | .remove start last =>
    [("edit", .str "remove"), ("start", encode start), ("end", encode last)]

/-- The index of an insertion may have 64 bits. -/
def decodeFields? (edit : String) (record : Json) : Option EditRequest :=
  match edit with
  | "insert" => do
    let fields ← record.fields? ["tokens", "anchor", "completes"]
    return .insert (← fields.required "tokens") (← fields.required "anchor")
      (← fields.orElse "completes" none)
  | "insert_ahead" => do
    let fields ← record.fields? ["token", "index"]
    return .insertAhead (← fields.required "token") (← (← fields.get? "index").word? 64)
  | "replace" => do
    let fields ← record.fields? ["tokens", "start", "end"]
    return .replace (← fields.required "tokens") (← fields.required "start")
      (← fields.required "end")
  | "remove" => do
    let fields ← record.fields? ["start", "end"]
    return .remove (← fields.required "start") (← fields.required "end")
  | _ => none

end EditRequest

instance : Coded EditRequest where
  encode request := .obj request.encodeFields
  decode? value := do
    let (edit, record) ← value.tagged? "edit"
    EditRequest.decodeFields? edit record

end SyntaxRecovery
