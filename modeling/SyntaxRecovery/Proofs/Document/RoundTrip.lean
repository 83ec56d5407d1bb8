import SyntaxRecovery.Document.Session
import SyntaxRecovery.Proofs.Document.Coding
import SyntaxRecovery.Proofs.Document.Flags
import SyntaxRecovery.Proofs.Tree.Arena

/-! A session that is written and read again is the same session. The links of its tree are not
written and come back from the slots. -/
namespace SyntaxRecovery
variable {levels : Nat}

instance : LawfulNamed NodeShape := ⟨fun a => by cases a <;> decide, by decide +kernel⟩

instance : LawfulNamed PrimitiveType := ⟨fun a => by cases a <;> decide, by decide⟩

instance : LawfulNamed AssignmentOperator := ⟨fun a => by cases a <;> decide, by decide⟩

instance : LawfulNamed InfixOperator := ⟨fun a => by cases a <;> decide, by decide⟩

instance : LawfulNamed PostfixOperator := ⟨fun a => by cases a <;> decide, by decide⟩

/-- The fields of a shape have different names, and none has the name under which the shape
stands. -/
theorem NodeShape.nodup_fields (shape : NodeShape) :
    ("shape" :: shape.fields.map (·.name)).Nodup := by
  cases shape <;> decide

theorem lossless_flags (flags : NodeFlags) : Lossless levels flags :=
  ⟨.str flags.text, flags.ofText?_text⟩

section Kinds
variable {type : FieldType} {value : type.Value} {found : Json.Fields} {name : String}

theorem FieldType.writable_encode (h : ∀ child ∈ type.children value, child < Nat.pow 2 32) :
    (type.encode value).Writable (levels + 1) := by
  cases type with
  | child => exact (lossless_nat (h value List.mem_cons_self)).writable
  | optional =>
    refine (lossless_option (fun id hid => lossless_nat (h id ?_)) nofun).writable
    exact Option.mem_toList.mpr hid
  | list => exact (lossless_list fun id hid => lossless_nat (h id hid)).writable
  | switch | truth => exact .bool value
  | text => exact .str value
  | primitive | assignmentOperator | infixOperator | postfixOperator => exact .str _

theorem FieldType.ofTagged_encode (type : FieldType) (value : type.Value) :
    (type.encode value).ofTagged = type.encode value := by
  cases type with
  | optional => exact ofTagged_option (fun _ => rfl) value
  | list => exact ofTagged_list (fun _ => rfl) value
  | child | switch | truth | text | primitive | assignmentOperator | infixOperator
  | postfixOperator => rfl

theorem FieldType.decode?_encode (h : ∀ child ∈ type.children value, child < Nat.pow 2 32)
    (hnamed : found.named) (hfound : found.get? name = some (type.encode value)) :
    type.decode? found name = some value := by
  cases type with
  | child => exact (lossless_nat (h value List.mem_cons_self) : Lossless 0 _).required hfound
  | optional =>
    have hvalue : Lossless 0 value :=
      lossless_option (fun id hid => lossless_nat (h id (Option.mem_toList.mpr hid))) nofun
    exact (if_pos hnamed).trans (hvalue.orElse hfound none)
  | list =>
    have hvalue : Lossless 1 value := lossless_list fun id hid => lossless_nat (h id hid)
    exact hvalue.orElse hfound []
  | switch => exact (lossless_bool value : Lossless 0 _).orElse hfound false
  | truth => exact (lossless_bool value : Lossless 0 _).required hfound
  | text => exact (lossless_string value : Lossless 0 _).required hfound
  | primitive => exact (lossless_named value : Lossless 0 _).required hfound
  | assignmentOperator => exact (lossless_named value : Lossless 0 _).required hfound
  | infixOperator => exact (lossless_named value : Lossless 0 _).required hfound
  | postfixOperator => exact (lossless_named value : Lossless 0 _).required hfound

theorem Record.names_encode (fields : List Field) (values : Record fields) :
    (Record.encode fields values).map (·.1) = fields.map (·.name) := by
  induction fields with
  | nil => rfl
  | cons field fields ih => exact congrArg (field.name :: ·) (ih values.2)

/-- What every member of a written record has. -/
theorem Record.forall_mem_encode {p : String × Json → Prop} {fields : List Field}
    {values : Record fields} (h : ∀ child ∈ Record.children fields values, child < Nat.pow 2 32)
    (hp : ∀ (field : Field) (value : field.type.Value),
      (∀ child ∈ field.type.children value, child < Nat.pow 2 32) →
        p (field.name, field.type.encode value)) :
    ∀ member ∈ Record.encode fields values, p member := by
  induction fields with
  | nil => nofun
  | cons field fields ih =>
    obtain ⟨hvalue, hrest⟩ := List.forall_mem_append.mp h
    exact List.forall_mem_cons.mpr ⟨hp field values.1 hvalue, ih hrest⟩

theorem Record.decode?_encode {fields : List Field} {values : Record fields}
    (h : ∀ child ∈ Record.children fields values, child < Nat.pow 2 32) (hnamed : found.named)
    (hfound : ∀ member ∈ Record.encode fields values, found.get? member.1 = some member.2) :
    Record.decode? found fields = some values := by
  induction fields with
  | nil => rfl
  | cons field fields ih =>
    obtain ⟨hvalue, hrest⟩ := List.forall_mem_append.mp h
    obtain ⟨hhead, htail⟩ := List.forall_mem_cons.mp hfound
    simp [Record.decode?, FieldType.decode?_encode hvalue hnamed hhead, ih hrest htail]
    rfl

/-- Where no name occurs twice, every member is found under its name. -/
theorem lookup_of_mem {members : List (String × Json)} (h : (members.map (·.1)).Nodup) :
    ∀ member ∈ members, members.lookup member.1 = some member.2 := by
  induction members with
  | nil => nofun
  | cons first members ih =>
    rw [List.map_cons, List.nodup_cons] at h
    refine List.forall_mem_cons.mpr ⟨List.lookup_cons_self, fun member hm => ?_⟩
    have hne : (member.1 == first.1) = false :=
      beq_eq_false_iff_ne.mpr fun heq => h.1 (heq ▸ List.mem_map_of_mem hm)
    rw [List.lookup_cons, hne]
    exact ih h.2 member hm

theorem lossless_kind {kind : NodeKind} (h : ∀ child ∈ kind.children, child < Nat.pow 2 32) :
    Lossless (levels + 2) kind := by
  obtain ⟨shape, values⟩ := kind
  have hnames := shape.nodup_fields
  rw [← Record.names_encode shape.fields values, List.nodup_cons] at hnames
  have hwritable : ∀ member ∈ Record.encode shape.fields values, member.2.Writable (levels + 1) :=
    Record.forall_mem_encode h fun _ _ hvalue => FieldType.writable_encode hvalue
  have hplain : ∀ member ∈ Record.encode shape.fields values, member.2.ofTagged = member.2 :=
    Record.forall_mem_encode h fun field value _ => field.type.ofTagged_encode value
  have htag : ∀ member ∈ Record.encode shape.fields values, member.1 ≠ "shape" :=
    fun member hm heq => hnames.1 (heq ▸ List.mem_map_of_mem hm)
  have htagged :=
    Json.tagged?_obj (Named.name shape) (fun member hm => (hwritable member hm).isReadable)
    htag hplain
  have hfields := Json.fields?_obj hnames.2 (shape.fields.map (·.name))
  have hvalues :
      Record.decode? ⟨Record.encode shape.fields values, true⟩ shape.fields = some values :=
    Record.decode?_encode h rfl (lookup_of_mem hnames.2)
  have hencode : encode (⟨shape, values⟩ : NodeKind) =
      .obj (("shape", .str (Named.name shape)) :: Record.encode shape.fields values) := rfl
  constructor
  · rw [hencode]
    exact .obj (List.forall_mem_cons.mpr ⟨.str _, hwritable⟩)
  · simp [decode?, hencode, htagged, Named.ofName?_name, hfields, hvalues]

end Kinds

section Trees

/-- The ids in the slots and the ends of the span have 32 bits. -/
structure Node.FitsWords (node : Node) : Prop where
  children : ∀ child ∈ node.kind.children, child < Nat.pow 2 32
  span : node.span.FitsWords

/-- A node comes back without its link. -/
theorem lossless_unlinked {node : Node} (h : node.FitsWords) :
    Lossless (levels + 3) node.unlinked := by
  have hkind : Lossless (levels + 2) node.unlinked.kind := lossless_kind h.children
  have hspan : Lossless (levels + 2) node.unlinked.span := lossless_span h.span
  have hflags : Lossless (levels + 2) node.unlinked.flags := lossless_flags _
  constructor
  · exact .obj (by simp [hkind.writable, hspan.writable, hflags.writable])
  · obtain ⟨fields, hfields, hkind, hspan, hflags⟩ : ∃ fields,
        (encode node.unlinked).fields? ["kind", "span", "flags"] = some fields ∧
        fields.required "kind" = some node.kind ∧ fields.required "span" = some node.span ∧
        fields.orElse "flags" .empty = some node.flags :=
      ⟨_, Json.fields?_obj (by simp) _, hkind.required rfl, hspan.required rfl, hflags.orElse rfl _⟩
    simp [decode?, hfields, hkind, hspan, hflags]
    rfl

theorem lossless_document {root : Option NodeId} {nodes : List Node}
    (hroot : ∀ id ∈ root, id < Nat.pow 2 32)
    (hnodes : ∀ node ∈ nodes, node.FitsWords) :
    Lossless (levels + 5) (⟨root, nodes.map Node.unlinked⟩ : TreeDocument) := by
  have hroot' : Lossless (levels + 4) root :=
    lossless_option (fun id hid => lossless_nat (hroot id hid)) nofun
  have hnodes' : Lossless (levels + 4) (nodes.map Node.unlinked) :=
    lossless_list fun written hw => by
    obtain ⟨node, hnode, rfl⟩ := List.mem_map.mp hw
    exact lossless_unlinked (hnodes node hnode)
  constructor
  · exact .obj (by simp [hroot'.writable, hnodes'.writable])
  · obtain ⟨fields, hfields, hroot, hnodes⟩ : ∃ fields,
        (encode (⟨root, nodes.map Node.unlinked⟩ : TreeDocument)).fields? ["root", "nodes"] =
          some fields ∧
        fields.nullable "root" = some root ∧
          fields.required "nodes" = some (nodes.map Node.unlinked) :=
      ⟨_, Json.fields?_obj (by simp) _, (if_pos rfl).trans (hroot'.orElse rfl none),
        hnodes'.required rfl⟩
    simp [decode?, hfields, hroot, hnodes]

/-- Ids have 32 bits, as do the ends of all spans. -/
structure Tree.FitsWords (tree : Tree) : Prop where
  size : tree.size ≤ Nat.pow 2 32
  spans : ∀ node ∈ tree.nodes, node.span.FitsWords

theorem lossless_tree {tree : Tree} (hwf : tree.WellFormed)
    (hroot : ∀ root ∈ tree.root, root < tree.size)
    (h : tree.FitsWords) : Lossless (levels + 5) tree := by
  have hnodes : ∀ node ∈ tree.nodes.toList, node.FitsWords := by
    intro node hnode
    rw [Array.mem_toList_iff] at hnode
    obtain ⟨id, hid⟩ := Array.mem_iff_getElem?.mp hnode
    refine ⟨fun child hchild => ?_, h.spans node hnode⟩
    rw [← Tree.children_of_node? hid] at hchild
    exact Nat.lt_of_lt_of_le (hwf.child_lt_size hchild) h.size
  have hdocument :
      Lossless (levels + 5) (⟨tree.root, tree.nodes.toList.map Node.unlinked⟩ : TreeDocument) :=
    lossless_document (fun root hr => Nat.lt_of_lt_of_le (hroot root hr) h.size) hnodes
  have hencode : encode tree =
      encode (⟨tree.root, tree.nodes.toList.map Node.unlinked⟩ : TreeDocument) := by
    change Json.obj [_, ("nodes", .arr (tree.nodes.toList.map encode))] =
      .obj [_, ("nodes", .arr ((tree.nodes.toList.map Node.unlinked).map encode))]
    rw [List.map_map]
    rfl
  have hlink : Tree.link (tree.nodes.toList.map Node.unlinked).toArray tree.root = .ok tree := by
    refine Tree.link_eq_ok_iff.mpr ⟨hwf, rfl, hroot, fun id => ?_⟩
    rw [List.getElem?_toArray, List.getElem?_map, Array.getElem?_toList, Option.map_map]
    rfl
  constructor
  · exact hencode ▸ hdocument.writable
  · have hread : decode? (encode tree) =
        some (⟨tree.root, tree.nodes.toList.map Node.unlinked⟩ : TreeDocument) :=
      hencode ▸ hdocument.restores
    change (decode? (encode tree)).bind (fun document : TreeDocument => document.link.toOption) =
      some tree
    rw [hread, Option.bind_some, TreeDocument.link, hlink]
    rfl

end Trees

/-- All numbers of the session are in range: the index of an insertion has 64 bits, everything else
has 32. -/
structure Session.FitsWords (session : Session) : Prop where
  edits : ∀ request ∈ session.edits, request.FitsWords
  diagnostics : ∀ diagnostic ∈ session.diagnostics, diagnostic.FitsWords
  tree : session.tree.FitsWords

theorem lossless_session {session : Session} (hreachable : session.tree.Reachable)
    (h : session.FitsWords) : Lossless (levels + 6) session := by
  have hconfig : Lossless (levels + 5) session.config := lossless_config _
  have hedits : Lossless (levels + 5) session.edits :=
    lossless_list fun request hr => lossless_request (h.edits request hr)
  have hdiagnostics : Lossless (levels + 5) session.diagnostics :=
    lossless_list fun diagnostic hd => lossless_diagnostic (h.diagnostics diagnostic hd)
  have htree : Lossless (levels + 5) session.tree :=
    lossless_tree hreachable.wellFormed hreachable.root_lt_size h.tree
  obtain ⟨config, source, edits, diagnostics, tree⟩ := session
  have hsource : Lossless (levels + 5) source :=
    lossless_option (fun text _ => lossless_string text) nofun
  constructor
  · refine .obj ?_
    cases source with
    | none =>
      simp [optionalMember, hconfig.writable, hedits.writable, hdiagnostics.writable,
        htree.writable]
    | some text =>
      simp [optionalMember, hconfig.writable, hedits.writable, hdiagnostics.writable,
        htree.writable, (lossless_string text).writable]
  · obtain ⟨fields, hfields, hconfig, hsource, hedits, hdiagnostics, htree⟩ : ∃ fields,
        (encode (⟨config, source, edits, diagnostics, tree⟩ : Session)).fields?
          ["config", "source", "edits", "diagnostics", "tree"] = some fields ∧
        fields.orElse "config" {} = some config ∧ fields.orElse "source" none = some source ∧
        fields.orElse "edits" [] = some edits ∧ fields.orElse "diagnostics" [] = some diagnostics ∧
        fields.orElse "tree" {} = some tree := by
      cases source with
      | none =>
        exact ⟨_, Json.fields?_obj (by simp [optionalMember]) _, hconfig.orElse rfl _, rfl,
          hedits.orElse rfl _, hdiagnostics.orElse rfl _, htree.orElse rfl _⟩
      | some text =>
        exact ⟨_, Json.fields?_obj (by simp [optionalMember]) _, hconfig.orElse rfl _,
          hsource.orElse rfl _, hedits.orElse rfl _, hdiagnostics.orElse rfl _, htree.orElse rfl _⟩
    simp [decode?, hfields, hconfig, hsource, hedits, hdiagnostics, htree]

/-- What is written of a session whose tree was built by calls or read is read as the same session,
with all links of the tree. -/
theorem ofJsonText?_encode {session : Session} (hreachable : session.tree.Reachable)
    (h : session.FitsWords) : ofJsonText? (encode session).compact = some session ∧
      ofJsonText? (encode session).pretty = some session := by
  have hsession : Lossless Json.maxDepth session :=
    (lossless_session hreachable h : Lossless (121 + 6) session)
  constructor
  · rw [ofJsonText?, Json.parse?_compact hsession.writable]
    exact hsession.restores
  · rw [ofJsonText?, Json.parse?_pretty hsession.writable]
    exact hsession.restores

/-- A session with a detached node, properties without a name, an edit of every kind and a text that
needs escapes. -/
def refilledSession : Session where
  config := { sourceLevel := .java8, extraExcluded := [.closeParen] }
  source := some "\"x\\\u0007é"
  edits := [.insert [.semicolon] 3 none, .insert [] 0 (some .semicolon), .insertAhead .closeParen 0,
    .replace [.semicolon] 1 2, .remove 4 3]
  diagnostics := [⟨.parsingError, 0, 1, "", false⟩, ⟨.other, 7, 2, "a\nb", true⟩]
  tree := Tree.refilled.edit (.setFlags 0 ⟨0xb1⟩)

theorem ofJsonText?_refilledSession : refilledSession.tree.Reachable ∧ refilledSession.FitsWords ∧
    ofJsonText? (encode refilledSession).compact = some refilledSession := by
  have hreachable : (Tree.refilled.edit (.setFlags 0 ⟨0xb1⟩)).Reachable :=
    .edited _ (.edited _ (.edited _ (.edited _ .empty)))
  have hfits : refilledSession.FitsWords := by
    have hspans : ∀ node ∈ refilledSession.tree.nodes,
        node.span.start < Nat.pow 2 32 ∧ node.span.stop < Nat.pow 2 32 := by decide +kernel
    have hends : ∀ diagnostic ∈ refilledSession.diagnostics,
        diagnostic.start < Nat.pow 2 32 ∧ diagnostic.last < Nat.pow 2 32 := by decide
    refine ⟨?_, fun diagnostic hd => ?_, ⟨by decide +kernel, fun node hn => ?_⟩⟩
    · simp [refilledSession, EditRequest.FitsWords]
    · exact ⟨(hends diagnostic hd).1, (hends diagnostic hd).2⟩
    · exact ⟨(hspans node hn).1, (hspans node hn).2⟩
  exact ⟨hreachable, hfits, (ofJsonText?_encode hreachable hfits).1⟩

end SyntaxRecovery
