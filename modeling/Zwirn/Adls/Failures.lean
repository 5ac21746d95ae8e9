import Zwirn.Adls.Rewrite

/-!
# How parsing and rewriting fail

A parsed buffer is rejected for what is in it and never for a request (`Document.parse_failsIn`),
and a rewrite of different handles of the document is not rejected for its request either
(`Document.rewrite_failsIn`).
-/

namespace Zwirn.Adls

open Lib

/-- The error is one of the buffer, and not of what is requested of it. -/
def Error.OfBuffer : Error → Prop
  | .unknownNodeHandle _ | .duplicateReplacement _ => False
  | _ => True

/-! ## Parsing -/

/-- A region is refused for where it lies. -/
theorem Layout.add_failsIn (layout : Layout) (start stop : Nat) (kind : RegionKind)
    (structure_ : String) : FailsIn Error.OfBuffer (layout.add start stop kind structure_) := by
  refine .bind (.require (by trivial) _) fun _ _ => ?_
  split
  · exact .bind (.require (by trivial) _) fun _ _ => .ok _
  · exact .bind (.require (by trivial) _) fun _ _ =>
      .bind (.require (by trivial) _) fun _ _ => .ok _

namespace Parser
variable (parser : Parser)

/-- Bytes cannot be read where the buffer has none. -/
theorem array_failsIn (size location : Nat) (structure_ : String) :
    FailsIn Error.OfBuffer (parser.array size location structure_) :=
  .bind (.okOr (by trivial) _) fun _ _ => .bind (.require (by trivial) _) fun _ _ => .ok _

/-- A word cannot be read where the buffer has none. -/
theorem readU16_failsIn (location : Nat) (structure_ : String) :
    FailsIn Error.OfBuffer (parser.readU16 location structure_) :=
  .bind (parser.array_failsIn 2 location structure_) fun _ _ => .ok _

/-- A word cannot be read where the buffer has none. -/
theorem readU32_failsIn (location : Nat) (structure_ : String) :
    FailsIn Error.OfBuffer (parser.readU32 location structure_) :=
  .bind (parser.array_failsIn 4 location structure_) fun _ _ => .ok _

/-- A signed word cannot be read where the buffer has none. -/
theorem readI32_failsIn (location : Nat) (structure_ : String) :
    FailsIn Error.OfBuffer (parser.readI32 location structure_) :=
  .bind (parser.array_failsIn 4 location structure_) fun _ _ => .ok _

/-- A sum fails with the place that it is about. -/
theorem checkedAdd_failsIn (left right errorLocation : Nat) (structure_ : String) :
    FailsIn Error.OfBuffer (parser.checkedAdd left right errorLocation structure_) :=
  .okOr (by trivial) _

/-- A range fails where the buffer ends before it. -/
theorem requireRange_failsIn (location length : Nat) (structure_ : String) :
    FailsIn Error.OfBuffer (parser.requireRange location length structure_) :=
  .bind (.okOr (by trivial) _) fun _ _ => .require (by trivial) _

/-- A table is rejected for its words and its entries. Each step names such an error, so the proof
follows the steps. -/
theorem table_failsIn (location : Nat) (structure_ : String) :
    FailsIn Error.OfBuffer (parser.table location structure_) := by
  refine .bind (.require (by trivial) _) fun _ _ => ?_
  refine .bind (parser.readI32_failsIn _ _) fun _ _ => ?_
  refine .bind (.require (by trivial) _) fun _ _ => ?_
  refine .bind (.okOr (by trivial) _) fun _ _ => ?_
  refine .bind (.require (by trivial) _) fun _ _ => ?_
  refine .bind (parser.readU16_failsIn _ _) fun _ _ => ?_
  refine .bind (parser.checkedAdd_failsIn _ _ _ _) fun _ _ => ?_
  refine .bind (parser.readU16_failsIn _ _) fun _ _ => ?_
  refine .bind (.require (by trivial) _) fun _ _ => ?_
  refine .bind (.require (by trivial) _) fun _ _ => ?_
  refine .bind (parser.requireRange_failsIn _ _ _) fun _ _ => ?_
  refine .bind (parser.requireRange_failsIn _ _ _) fun _ _ => ?_
  refine .bind (.forM fun entryOffset _ => ?_) fun _ _ => .ok _
  refine .bind (parser.checkedAdd_failsIn _ _ _ _) fun _ _ => ?_
  exact .bind (parser.readU16_failsIn _ _) fun _ _ => .require (by trivial) _

/-- An offset is rejected for where it leads. -/
theorem followUoffset_failsIn (location alignment : Nat) (structure_ : String) :
    FailsIn Error.OfBuffer (parser.followUoffset location alignment structure_) := by
  refine .bind (.require (by trivial) _) fun _ _ => ?_
  refine .bind (parser.readU32_failsIn _ _) fun _ _ => ?_
  refine .bind (.require (by trivial) _) fun _ _ => ?_
  refine .bind (parser.checkedAdd_failsIn _ _ _ _) fun _ _ => ?_
  exact .bind (.require (by trivial) _) fun _ _ => .ok _

end Parser

/-- A field is rejected for where it lies, or for another one that starts inside it. An absent field
is no failure. -/
theorem Table.field_failsIn (t : Table) (parser : Parser) (fieldIndex width alignment : Nat)
    (structure_ : String) :
    FailsIn Error.OfBuffer (t.field parser fieldIndex width alignment structure_) := by
  refine .bind (.okOr (by trivial) _) fun _ _ => .bind (.okOr (by trivial) _) fun _ _ => ?_
  split
  · exact .ok _
  · refine .bind (parser.checkedAdd_failsIn _ _ _ _) fun _ _ => ?_
    refine .bind (parser.readU16_failsIn _ _) fun _ _ => ?_
    split
    · exact .ok _
    · refine .bind (.okOr (by trivial) _) fun _ _ => .bind (.require (by trivial) _) fun _ _ => ?_
      refine .bind (.forM fun otherEntryOffset _ => ?_) fun _ _ => ?_
      · unfold Table.checkOther
        split
        · exact .ok _
        · refine .bind (parser.checkedAdd_failsIn _ _ _ _) fun _ _ => ?_
          exact .bind (parser.readU16_failsIn _ _) fun _ _ => .require (by trivial) _
      · refine .bind (parser.checkedAdd_failsIn _ _ _ _) fun _ _ => ?_
        refine .bind (.require (by trivial) _) fun _ _ => ?_
        exact .bind (parser.requireRange_failsIn _ _ _) fun _ _ => .ok _

/-- A table is refused for where it and its vtable lie. -/
theorem Layout.addTable_failsIn (layout : Layout) (t : Table) (structure_ : String) :
    FailsIn Error.OfBuffer (layout.addTable t structure_) := by
  refine .bind (.okOr (by trivial) _) fun _ _ => .bind (layout.add_failsIn _ _ _ _) fun _ _ => ?_
  exact .bind (.okOr (by trivial) _) fun _ _ => Layout.add_failsIn _ _ _ _ _

namespace Parser
variable (parser : Parser)

/-- A string is rejected for its length, its bytes or its terminator. -/
theorem sourceString_failsIn (sourceFieldLocation : Nat) :
    FailsIn Error.OfBuffer (parser.sourceString sourceFieldLocation) := by
  refine .bind (parser.followUoffset_failsIn _ _ _) fun _ _ => ?_
  refine .bind (parser.readU32_failsIn _ _) fun _ _ => ?_
  refine .bind (parser.checkedAdd_failsIn _ _ _ _) fun _ _ => ?_
  refine .bind (parser.checkedAdd_failsIn _ _ _ _) fun _ _ => ?_
  refine .bind (parser.requireRange_failsIn _ _ _) fun _ _ => ?_
  refine .bind (.okOr (by trivial) _) fun _ _ => .bind (.require (by trivial) _) fun _ _ => ?_
  exact .bind (.okOr (by trivial) _) fun _ _ => .ok _

/-- A type id cannot be read where its field cannot be found. -/
theorem typeId_failsIn (object : Table) : FailsIn Error.OfBuffer (parser.typeId object) := by
  refine .bind (object.field_failsIn _ _ _ _ _) fun location _ => ?_
  cases location with
  | some location => exact parser.readU32_failsIn _ _
  | none => exact .ok _

/-- An object is rejected for what is in it, or because it was read before. The proof follows the
branches of a round: a table that was read before, an object without a source, and one with a
source. -/
theorem parseObject_failsIn (documentId elementsLocation : Nat) (st : ParseState) (index : Nat) :
    FailsIn Error.OfBuffer (parser.parseObject documentId elementsLocation st index) := by
  refine .bind (.okOr (by trivial) _) fun _ _ => ?_
  refine .bind (parser.checkedAdd_failsIn _ _ _ _) fun _ _ => ?_
  refine .bind (parser.followUoffset_failsIn _ _ _) fun objectLocation _ => ?_
  refine .bind (.okOr (by trivial) _) fun _ _ => ?_
  split
  · exact .error (by trivial)
  · refine .bind (parser.table_failsIn _ _) fun object _ => ?_
    refine .bind (Layout.addTable_failsIn _ _ _) fun _ _ => ?_
    refine .bind (parser.typeId_failsIn _) fun typeId _ => ?_
    refine .bind (.require (by trivial) _) fun _ _ => ?_
    split
    · exact .ok _
    · refine .bind (object.field_failsIn _ _ _ _ _) fun location _ => ?_
      cases location with
      | none => exact .ok _
      | some location =>
        refine .bind (parser.sourceString_failsIn _) fun _ _ => ?_
        refine .bind (Layout.add_failsIn _ _ _ _ _) fun _ _ => ?_
        exact .bind (.okOr (by trivial) _) fun _ _ => .ok _

end Parser

/-- A buffer is rejected for what is in it. No failure of the parser is one of the rewriting. Each
of its steps fails so, and they are gone through in their order. -/
theorem Document.parse_failsIn (documentId : Nat) (bytes : Bytes) :
    FailsIn Error.OfBuffer (Document.parse documentId bytes) := by
  refine .bind (.require (by trivial) _) fun _ _ => .bind (.require (by trivial) _) fun _ _ => ?_
  refine .bind (Layout.add_failsIn _ _ _ _ _) fun _ _ => ?_
  refine .bind (Parser.followUoffset_failsIn _ _ _ _) fun _ _ => ?_
  refine .bind (Parser.table_failsIn _ _ _) fun _ _ => ?_
  refine .bind (Layout.addTable_failsIn _ _ _) fun _ _ => ?_
  refine .bind (Table.field_failsIn _ _ _ _ _ _) fun _ _ => .bind (.okOr (by trivial) _) fun _ _ => ?_
  refine .bind (Parser.followUoffset_failsIn _ _ _ _) fun _ _ => ?_
  refine .bind (Parser.readU32_failsIn _ _ _) fun _ _ => .bind (.require (by trivial) _) fun _ _ => ?_
  refine .bind (Parser.checkedAdd_failsIn _ _ _ _ _) fun _ _ => ?_
  refine .bind (.okOr (by trivial) _) fun _ _ => ?_
  refine .bind (Parser.requireRange_failsIn _ _ _ _) fun _ _ => ?_
  refine .bind (.okOr (by trivial) _) fun _ _ => .bind (Layout.add_failsIn _ _ _ _ _) fun _ _ => ?_
  exact .bind (.foldlM (fun st index _ => Parser.parseObject_failsIn _ _ _ st index) _)
    fun _ _ => .ok _

/-! ## Rewriting -/

/-- Planning fails because the rewritten buffer would be too large. -/
theorem planRewriteSize_failsIn (initialSize : Nat) (replacementLengths : List Nat) :
    FailsIn Error.OfBuffer (planRewriteSize initialSize replacementLengths) :=
  .bind (.require (by trivial) _) fun _ _ => .foldlM (fun _ _ _ => .okOr (by trivial) _) _

/-- The changes of a batch fail because a text is too long for a 32-bit length. A change is entered
for each requested text that differs, and nothing else can fail. -/
theorem Document.changes_failsIn (doc : Document) (requested : List (Option Str)) :
    FailsIn Error.OfBuffer (doc.changes requested) := by
  refine .foldlM (fun changes e _ => ?_) _
  obtain ⟨requested, source, fieldLocation⟩ := e
  cases requested with
  | none => exact .ok _
  | some replacement =>
    unfold Document.changeOne
    dsimp only
    split
    · exact .ok _
    · exact .bind (.okOr (by trivial) _) fun _ _ => .ok _

/-- A rewrite of different handles of the document is not rejected for its request. Its requests are
entered, so that only the sizes and the validation of the result are left. -/
theorem Document.rewrite_failsIn {doc : Document} (ho : doc.Ordered) (validationId : Nat)
    {replacements : List (NodeHandle × Str)} (hnodup : (replacements.map (·.1)).Nodup)
    (hfrom : ∀ r ∈ replacements, r.1 ∈ doc.sources.map (·.handle)) :
    FailsIn Error.OfBuffer (doc.rewrite validationId replacements) := by
  unfold Document.rewrite
  split
  · exact .ok _
  · rw [Document.request_eq ho hnodup hfrom]
    refine .bind (.ok _) fun _ _ => .bind (doc.changes_failsIn _) fun _ _ => ?_
    split
    · exact .ok _
    · refine .bind (planRewriteSize_failsIn _ _) fun _ _ => ?_
      refine .bind (.foldlM (fun _ _ _ => .bind (.okOr (by trivial) _) fun _ _ => .ok _) _)
        fun _ _ => ?_
      exact .bind (Document.parse_failsIn _ _) fun _ _ => .ok _

end Zwirn.Adls
