import SyntaxRecovery.Document.Stream
import SyntaxRecovery.Proofs.Json.Reading

/-! Values that their JSON form gives back. -/
namespace SyntaxRecovery
variable {α : Type} {levels : Nat}

/-- Every value of the kind is listed, and no two have the same name. -/
class LawfulNamed (α : Type) [Named α] : Prop where
  complete : ∀ a : α, a ∈ (Named.all : List α)
  nodup : ((Named.all : List α).map Named.name).Nodup

theorem Named.ofName?_name [Named α] [LawfulNamed α] (a : α) : ofName? (name a) = some a := by
  have hfind (kinds : List α) (hnodup : (kinds.map name).Nodup) (ha : a ∈ kinds) :
      kinds.find? (name · == name a) = some a := by
    induction kinds with
    | nil => cases ha
    | cons kind kinds ih =>
      rw [List.map_cons, List.nodup_cons] at hnodup
      rcases List.mem_cons.mp ha with rfl | ha
      · simp
      · have hne : name kind ≠ name a := fun heq => hnodup.1 (heq ▸ List.mem_map_of_mem ha)
        rw [List.find?_cons_of_neg (by simpa using hne)]
        exact ih hnodup.2 ha
  exact hfind all LawfulNamed.nodup (LawfulNamed.complete a)

instance : LawfulNamed TokenKind := ⟨fun a => by cases a <;> decide, by decide +kernel⟩

instance : LawfulNamed SourceLevel := ⟨fun a => by cases a <;> decide, by decide⟩

instance : LawfulNamed ProblemCategory := ⟨fun a => by cases a <;> decide, by decide +kernel⟩

/-- The form of `a` can be written with at most `levels` containers around each other, and gives `a`
back. -/
structure Lossless [Coded α] (levels : Nat) (a : α) : Prop where
  writable : (encode a).Writable levels
  restores : decode? (encode a) = some a

theorem Json.word?_int {bits n : Nat} (h : n < Nat.pow 2 bits) :
    (Json.int n).word? bits = some n := by
  have hword : (0 : Int) ≤ n ∧ (n : Int) < Nat.pow 2 bits :=
    ⟨Int.natCast_nonneg n, Int.ofNat_lt.mpr h⟩
  rw [word?, if_pos hword, Int.toNat_natCast]

theorem lossless_nat {n : Nat} (h : n < Nat.pow 2 32) : Lossless levels n where
  writable := .int (h.trans (by decide))
  restores := Json.word?_int h

theorem lossless_bool (value : Bool) : Lossless levels value := ⟨.bool value, rfl⟩

theorem lossless_string (text : String) : Lossless levels text := ⟨.str text, rfl⟩

theorem lossless_named [Named α] [LawfulNamed α] (a : α) : Lossless levels a :=
  ⟨.str _, Named.ofName?_name a⟩

theorem lossless_list [Coded α] {items : List α} (h : ∀ item ∈ items, Lossless levels item) :
    Lossless (levels + 1) items where
  writable := by
    refine .arr fun value hvalue => ?_
    obtain ⟨item, hitem, rfl⟩ := List.mem_map.mp hvalue
    exact (h item hitem).writable
  restores := by
    show (items.map encode).mapM decode? = some items
    induction items with
    | nil => rfl
    | cons item items ih =>
      obtain ⟨hitem, hitems⟩ := List.forall_mem_cons.mp h
      rw [List.map_cons, List.mapM_cons, hitem.restores, ih hitems]
      rfl

/-- A value that may be missing needs a form that cannot be taken for no value. -/
theorem lossless_option [Coded α] {value : Option α} (h : ∀ a ∈ value, Lossless levels a)
    (hnull : ∀ a : α, encode a ≠ .null) : Lossless levels value := by
  cases value with
  | none => exact ⟨.null, rfl⟩
  | some a =>
    obtain ⟨hwritable, hrestores⟩ := h a rfl
    have hform : decode? (encode a) = (decode? (encode a) : Option α).map some := by
      cases hjson : encode a with
      | null => exact absurd hjson (hnull a)
      | _ => rfl
    exact ⟨hwritable, hform.trans (by rw [hrestores]; rfl)⟩

namespace Json

/-- Members with different names make an object of any record that has such fields. -/
theorem fields?_obj {members : List (String × Json)} (h : (members.map (·.1)).Nodup)
    (names : List String) : fields? names (.obj members) = some ⟨members, true⟩ := by
  refine if_pos (List.all_eq_true.mpr fun name _ => ?_)
  have hcount : members.countP (·.1 == name) = (members.map (·.1)).count name := by
    rw [List.count, List.countP_map]
    rfl
  rw [hcount]
  exact decide_eq_true (List.nodup_iff_count.mp h name)

theorem areReadable_iff {items : List Json} :
    areReadable items ↔ ∀ item ∈ items, item.isReadable := by
  induction items with
  | nil => simp [areReadable]
  | cons item items ih => simp [areReadable, ih]

theorem membersReadable_iff {members : List (String × Json)} :
    membersReadable members ↔ ∀ member ∈ members, member.2.isReadable := by
  induction members with
  | nil => simp [membersReadable]
  | cons member members ih => simp [membersReadable, ih]

theorem Writable.isReadable {value : Json} (h : value.Writable levels) : value.isReadable := by
  induction h with
  | null | bool | int | str => rfl
  | arr _ ih => exact areReadable_iff.mpr ih
  | obj _ ih => exact membersReadable_iff.mpr ih

/-- The word under the tag tells the case, and the other members are left as they are where no name
with nothing under it is among them. -/
theorem tagged?_obj {tag : String} (word : String) {members : List (String × Json)}
    (hreadable : ∀ member ∈ members, member.2.isReadable)
    (htag : ∀ member ∈ members, member.1 ≠ tag)
    (hplain : ∀ member ∈ members, member.2.ofTagged = member.2) :
    tagged? tag (.obj ((tag, .str word) :: members)) = some (word, .obj members) := by
  have hrecord : (Json.obj ((tag, .str word) :: members)).isReadable :=
    membersReadable_iff.mpr (List.forall_mem_cons.mpr ⟨rfl, hreadable⟩)
  have hothers : members.filter (·.1 != tag) = members :=
    List.filter_eq_self.mpr fun member hm => by simpa using htag member hm
  have hnone : members.filter (·.1 == tag) = [] :=
    List.filter_eq_nil_iff.mpr fun member hm => by simpa using htag member hm
  have hsame : (members.map fun member => (member.1, member.2.ofTagged)) = members := by
    refine (List.map_congr_left fun member hm => ?_).trans (List.map_id members)
    exact Prod.ext rfl (hplain member hm)
  simp [tagged?, hrecord, hothers, hnone, hsame]

end Json

namespace Lossless
variable [Coded α] {fields : Json.Fields} {name : String} {a : α}

theorem required (ha : Lossless levels a) (h : fields.get? name = some (encode a)) :
    fields.required name = some a := by
  rw [Json.Fields.required, h, Option.bind_some, ha.restores]

theorem orElse (ha : Lossless levels a) (h : fields.get? name = some (encode a)) (otherwise : α) :
    fields.orElse name otherwise = some a := by
  rw [Json.Fields.orElse, h]
  exact ha.restores

end Lossless

theorem lossless_span {span : Span} (h : span.FitsWords) : Lossless (levels + 1) span := by
  have hstart : Lossless levels span.start := lossless_nat h.start
  have hstop : Lossless levels span.stop := lossless_nat h.stop
  constructor
  · exact .obj (by simp [hstart.writable, hstop.writable])
  · obtain ⟨fields, hfields, hstart, hstop⟩ : ∃ fields,
        (encode span).fields? ["start", "end"] = some fields ∧
        fields.required "start" = some span.start ∧ fields.required "end" = some span.stop :=
      ⟨_, Json.fields?_obj (by simp) _, hstart.required rfl, hstop.required rfl⟩
    simp [decode?, hfields, hstart, hstop]

theorem ofTagged_named [Named α] (a : α) : (encode a).ofTagged = encode a := rfl

theorem ofTagged_list [Coded α] (h : ∀ a : α, (encode a).bare = encode a) (items : List α) :
    (encode items).ofTagged = encode items := by
  change Json.arr ((items.map encode).map Json.bare) = Json.arr (items.map encode)
  rw [List.map_map]
  exact congrArg Json.arr (List.map_congr_left fun a _ => h a)

theorem ofTagged_option [Coded α] (h : ∀ a : α, (encode a).ofTagged = encode a) (value : Option α) :
    (encode value).ofTagged = encode value := by
  cases value with
  | none => rfl
  | some a => exact h a

theorem lossless_config (config : RecoveryConfig) : Lossless (levels + 2) config := by
  have hlevel : Lossless (levels + 1) config.sourceLevel := lossless_named _
  have hexcluded : Lossless (levels + 1) config.extraExcluded :=
    lossless_list fun _ _ => lossless_named _
  have hfilter : Lossless (levels + 1) config.completionFilter :=
    lossless_list fun _ _ => lossless_named _
  have hrecording : Lossless (levels + 1) config.recording := lossless_bool _
  constructor
  · exact .obj (by
      simp [hlevel.writable, hexcluded.writable, hfilter.writable, hrecording.writable])
  · obtain ⟨fields, hfields, hlevel, hexcluded, hfilter, hrecording⟩ : ∃ fields,
        (encode config).fields?
          ["source_level", "extra_excluded", "statement_recovery_filter", "recording"] =
            some fields ∧
        fields.orElse "source_level" .java21 = some config.sourceLevel ∧
        fields.orElse "extra_excluded" [] = some config.extraExcluded ∧
        fields.orElse "statement_recovery_filter" [] = some config.completionFilter ∧
        fields.orElse "recording" true = some config.recording :=
      ⟨_, Json.fields?_obj (by simp) _, hlevel.orElse rfl _, hexcluded.orElse rfl _,
        hfilter.orElse rfl _, hrecording.orElse rfl _⟩
    simp [decode?, hfields, hlevel, hexcluded, hfilter, hrecording]

/-- The ends have 32 bits. -/
structure Diagnostic.FitsWords (diagnostic : Diagnostic) : Prop where
  start : diagnostic.start < Nat.pow 2 32
  last : diagnostic.last < Nat.pow 2 32

theorem lossless_diagnostic {diagnostic : Diagnostic} (h : diagnostic.FitsWords) :
    Lossless (levels + 1) diagnostic := by
  have hcategory : Lossless levels diagnostic.category := lossless_named _
  have hstart : Lossless levels diagnostic.start := lossless_nat h.start
  have hlast : Lossless levels diagnostic.last := lossless_nat h.last
  have hmessage : Lossless levels diagnostic.message := lossless_string _
  have hused : Lossless levels diagnostic.used := lossless_bool _
  constructor
  · refine .obj ?_
    by_cases hempty : diagnostic.message = "" <;>
      simp [hempty, hcategory.writable, hstart.writable, hlast.writable, hmessage.writable,
        hused.writable]
  · obtain ⟨fields, hfields, hcategory, hstart, hlast, hmessage, hused⟩ : ∃ fields,
        (encode diagnostic).fields? ["category", "start", "end", "message", "used"] = some fields ∧
        fields.required "category" = some diagnostic.category ∧
        fields.required "start" = some diagnostic.start ∧
          fields.required "end" = some diagnostic.last ∧
        fields.orElse "message" "" = some diagnostic.message ∧
        fields.orElse "used" false = some diagnostic.used := by
      by_cases hempty : diagnostic.message = ""
      · refine ⟨_, Json.fields?_obj (by simp [hempty]) _, hcategory.required rfl,
          hstart.required rfl, hlast.required rfl, ?_, ?_⟩
        · simp [Json.Fields.orElse, Json.Fields.get?, hempty, List.lookup_cons]
        · simp only [hempty, if_true]
          exact hused.orElse rfl _
      · refine ⟨_, Json.fields?_obj (by simp [hempty]) _, hcategory.required rfl,
          hstart.required rfl, hlast.required rfl, ?_, ?_⟩
        · simp only [hempty, if_false]
          exact hmessage.orElse rfl _
        · simp only [hempty, if_false]
          exact hused.orElse rfl _
    simp [decode?, hfields, hcategory, hstart, hlast, hmessage, hused]

/-- Offsets have 32 bits, the index of an insertion has 64. -/
def EditRequest.FitsWords : EditRequest → Prop
  | .insert _ anchor _ => anchor < Nat.pow 2 32
  | .insertAhead _ index => index < Nat.pow 2 64
  | .replace _ start last | .remove start last => start < Nat.pow 2 32 ∧ last < Nat.pow 2 32

theorem lossless_of_fields {request : EditRequest} {word : String} {members : List (String × Json)}
    (hform : request.encodeFields = ("edit", .str word) :: members)
    (hwritable : ∀ member ∈ members, member.2.Writable levels)
    (htag : ∀ member ∈ members, member.1 ≠ "edit")
    (hplain : ∀ member ∈ members, member.2.ofTagged = member.2)
    (hrestores : EditRequest.decodeFields? word (.obj members) = some request) :
    Lossless (levels + 1) request := by
  have hencode : encode request = .obj (("edit", .str word) :: members) := congrArg Json.obj hform
  have htagged :=
    Json.tagged?_obj word (fun member hm => (hwritable member hm).isReadable) htag hplain
  constructor
  · rw [hencode]
    exact .obj (List.forall_mem_cons.mpr ⟨.str word, hwritable⟩)
  · simp [decode?, hencode, htagged, hrestores]

section Requests
variable {tokens : List TokenKind} {anchor start last index : Nat}

theorem lossless_kinds (kinds : List TokenKind) : Lossless (levels + 1) kinds :=
  lossless_list fun _ _ => lossless_named _

theorem ofTagged_kinds (kinds : List TokenKind) : (encode kinds).ofTagged = encode kinds :=
  ofTagged_list (fun _ => rfl) kinds

theorem ofTagged_nat (n : Nat) : (encode n).ofTagged = encode n := rfl

theorem lossless_insert (tokens : List TokenKind) (h : anchor < Nat.pow 2 32)
    (completes : Option TokenKind) :
    Lossless (levels + 2) (EditRequest.insert tokens anchor completes) := by
  have htokens : Lossless (levels + 1) tokens := lossless_kinds tokens
  have hanchor : Lossless (levels + 1) anchor := lossless_nat h
  have hcompletes : Lossless (levels + 1) completes :=
    lossless_option (fun a _ => lossless_named a) nofun
  have hplain : (encode completes).ofTagged = encode completes :=
    ofTagged_option ofTagged_named completes
  refine lossless_of_fields rfl ?_ (by simp) (by simp [hplain, ofTagged_kinds, ofTagged_nat]) ?_
  · simp [htokens.writable, hanchor.writable, hcompletes.writable]
  · obtain ⟨fields, hfields, htokens, hanchor, hcompletes⟩ : ∃ fields,
        Json.fields? ["tokens", "anchor", "completes"] (.obj [("tokens", encode tokens),
          ("anchor", encode anchor), ("completes", encode completes)]) = some fields ∧
        fields.required "tokens" = some tokens ∧ fields.required "anchor" = some anchor ∧
        fields.orElse "completes" none = some completes :=
      ⟨_, Json.fields?_obj (by simp) _, htokens.required rfl, hanchor.required rfl,
        hcompletes.orElse rfl _⟩
    simp [EditRequest.decodeFields?, hfields, htokens, hanchor, hcompletes]

theorem lossless_insertAhead (token : TokenKind) (h : index < Nat.pow 2 64) :
    Lossless (levels + 1) (EditRequest.insertAhead token index) := by
  have htoken : Lossless levels token := lossless_named token
  refine lossless_of_fields rfl ?_ (by simp) (by simp [ofTagged_named, ofTagged_nat]) ?_
  · have hindex : (encode index).Writable levels := .int h
    simp [htoken.writable, hindex]
  · obtain ⟨fields, value, hfields, htoken, hindex, hvalue⟩ : ∃ fields value,
        Json.fields? ["token", "index"] (.obj [("token", encode token), ("index", encode index)]) =
          some fields ∧
        fields.required "token" = some token ∧ fields.get? "index" = some value ∧
        value.word? 64 = some index :=
      ⟨_, _, Json.fields?_obj (by simp) _, htoken.required rfl, rfl, Json.word?_int h⟩
    simp [EditRequest.decodeFields?, hfields, htoken, hindex, hvalue]

theorem lossless_replace (tokens : List TokenKind) (hstart : start < Nat.pow 2 32)
    (hlast : last < Nat.pow 2 32) :
    Lossless (levels + 2) (EditRequest.replace tokens start last) := by
  have htokens : Lossless (levels + 1) tokens := lossless_kinds tokens
  have hstart : Lossless (levels + 1) start := lossless_nat hstart
  have hlast : Lossless (levels + 1) last := lossless_nat hlast
  refine lossless_of_fields rfl ?_ (by simp) (by simp [ofTagged_kinds, ofTagged_nat]) ?_
  · simp [htokens.writable, hstart.writable, hlast.writable]
  · obtain ⟨fields, hfields, htokens, hstart, hlast⟩ : ∃ fields,
        Json.fields? ["tokens", "start", "end"]
          (.obj [("tokens", encode tokens), ("start", encode start), ("end", encode last)]) =
            some fields ∧
        fields.required "tokens" = some tokens ∧ fields.required "start" = some start ∧
        fields.required "end" = some last :=
      ⟨_, Json.fields?_obj (by simp) _, htokens.required rfl, hstart.required rfl,
        hlast.required rfl⟩
    simp [EditRequest.decodeFields?, hfields, htokens, hstart, hlast]

theorem lossless_remove (hstart : start < Nat.pow 2 32) (hlast : last < Nat.pow 2 32) :
    Lossless (levels + 1) (EditRequest.remove start last) := by
  have hstart : Lossless levels start := lossless_nat hstart
  have hlast : Lossless levels last := lossless_nat hlast
  refine lossless_of_fields rfl ?_ (by simp) (by simp [ofTagged_nat]) ?_
  · simp [hstart.writable, hlast.writable]
  · obtain ⟨fields, hfields, hstart, hlast⟩ : ∃ fields,
        Json.fields? ["start", "end"] (.obj [("start", encode start), ("end", encode last)]) =
          some fields ∧
        fields.required "start" = some start ∧ fields.required "end" = some last :=
      ⟨_, Json.fields?_obj (by simp) _, hstart.required rfl, hlast.required rfl⟩
    simp [EditRequest.decodeFields?, hfields, hstart, hlast]

theorem lossless_request {request : EditRequest} (h : request.FitsWords) :
    Lossless (levels + 2) request := by
  cases request with
  | insert tokens anchor completes => exact lossless_insert tokens h completes
  | insertAhead token index => exact lossless_insertAhead token h
  | replace tokens start last => exact lossless_replace tokens h.1 h.2
  | remove start last => exact lossless_remove h.1 h.2

end Requests

end SyntaxRecovery
