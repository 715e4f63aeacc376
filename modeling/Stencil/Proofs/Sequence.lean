import Stencil.Proofs.Escape.Decoding
import Stencil.Proofs.Strict.Grammar
import Stencil.Template

namespace Stencil

theorem escape_intercalate (texts : List String) :
    escape (String.intercalate "," texts) = String.intercalate "," (texts.map escape) := by
  have hcomma : escape "," = "," := by decide
  induction texts with
  | nil => decide
  | cons text rest ih =>
      cases rest with
      | nil => simp
      | cons next rest =>
          rw [String.intercalate_cons_cons, escape_append, escape_append, hcomma, ih]
          simp

-- A comma behind each text but the last is a comma between any two.
theorem join_mapIdx_eq_intercalate {α : Type} (f : α → String) (items : List α) :
    String.join (items.mapIdx fun index item =>
      f item ++ if index + 1 = items.length then "" else ",") =
        String.intercalate "," (items.map f) := by
  induction items with
  | nil => simp
  | cons item rest ih =>
      simp only [List.mapIdx_cons, String.join_cons, List.length_cons, Nat.add_right_cancel_iff, ih]
      cases rest with
      | nil => simp
      | cons next rest => simp

namespace Scope

variable {element : Value}

theorem resolve_item_this (h : element.field? "this" = none) (scope : Scope) (index count : Nat) :
    (item scope element index count).resolve ⟨"this"⟩ = some element := by
  have hfirst : (⟨"this"⟩ : Path).first = "this" := by decide
  have hfields : (⟨"this"⟩ : Path).fields = [] := by decide
  rw [resolve, hfirst, hfields, lookup, h]
  rfl

-- No field of the element can stand for the loop variable.
theorem resolve_item_last (scope : Scope) (element : Value) (index count : Nat) :
    (item scope element index count).resolve ⟨"@last"⟩ = some (.bool (index + 1 = count)) := by
  have hfirst : (⟨"@last"⟩ : Path).first = "@last" := by decide
  have hfields : (⟨"@last"⟩ : Path).fields = [] := by decide
  rw [resolve, hfirst, hfields, lookup]
  rfl

end Scope

namespace Node

variable {scope : Scope} {path : Path} {items : List Value}

-- The loop `{{#each path}}{{this}}{{#unless @last}},{{/unless}}{{/each}}`, or with three braces around `this`.
def commaLoop (path : Path) (escaped : Bool) : String :=
  openerText .each path ++ placeholderText ⟨"this"⟩ escaped ++ openerText .ifFalse ⟨"@last"⟩ ++ "," ++
    closerText .ifFalse ++ closerText .each

def commaBody (escaped : Bool) : List Node :=
  [.placeholder ⟨"this"⟩ escaped, .block .ifFalse ⟨"@last"⟩ [.text ","]]

section Parse

theorem parse_placeholderText (hpath : path.isValid = true) (escaped : Bool) :
    parse {} (placeholderText path escaped).toList = .ok [.placeholder path escaped] := by
  have hnil := Outline.rereads_nil false 128 True
  have htag := hnil.placeholder (spelled_placeholderText path escaped) hpath
  rw [List.append_nil] at htag
  exact htag.parse_eq

theorem rereads_comma (room : Nat) :
    Outline.Rereads false room False [.text ","] ",".toList (Outline.ofChars ",".toList ++ .nil) := by
  have htidy : Tidy [.text ","] := ⟨by simp, List.isChain_singleton _⟩
  have htext := (Outline.rereads_nil false room False).text htidy (by decide) (by decide)
  rwa [List.append_nil] at htext

theorem parse_commaLoop (hpath : path.isValid = true) (escaped : Bool) :
    parse {} (commaLoop path escaped).toList = .ok [.block .each path (commaBody escaped)] := by
  have hunless := (Outline.rereads_nil false 127 False).block (rereads_comma 126) not_false (by decide)
    (spelled_openerText .ifFalse ⟨"@last"⟩) (by decide) (spelled_closerText .ifFalse) (by simp)
  have hbody := hunless.placeholder (spelled_placeholderText ⟨"this"⟩ escaped) (by decide)
  have hloop := (Outline.rereads_nil false 128 True).block hbody not_false (by decide)
    (spelled_openerText .each path) hpath (spelled_closerText .each) (by simp)
  have hparse : parse {} _ = .ok [.block .each path (commaBody escaped)] := hloop.parse_eq
  simpa [commaLoop] using hparse

end Parse

section Render

variable {element : Value}

theorem renderAll_commaBody (h : element.field? "this" = none) (scope : Scope) (index count : Nat)
    (escaped : Bool) :
    renderAll (.item scope element index count) (commaBody escaped) =
      renderPlaceholder (some element) escaped ++ if index + 1 = count then "" else "," := by
  simp only [commaBody, renderAll, render, Scope.resolve_item_this h, Scope.resolve_item_last,
    isTruthy, Option.any_some, Value.isTruthy, decide_eq_true_eq, String.append_empty]

theorem renderPlaceholder_sequence (items : List Value) (escaped : Bool) :
    renderPlaceholder (some (.sequence items)) escaped =
      String.intercalate "," (items.map fun item => renderPlaceholder (some item) escaped) := by
  cases escaped with
  | true =>
      rw [renderPlaceholder, if_pos rfl, Value.toText, Value.toTexts_eq_map, escape_intercalate,
        List.map_map]
      rfl
  | false =>
      rw [renderPlaceholder, if_neg Bool.false_ne_true, Value.toText, Value.toTexts_eq_map]
      rfl

theorem render_each_commaBody (hsequence : scope.resolve path = some (.sequence items))
    (hthis : ∀ item ∈ items, item.field? "this" = none) (escaped : Bool) :
    render scope (.block .each path (commaBody escaped)) =
      String.intercalate "," (items.map fun item => renderPlaceholder (some item) escaped) := by
  have hturns : items.mapIdx (fun index item =>
      renderAll (.item scope item index items.length) (commaBody escaped)) =
        items.mapIdx fun index item =>
          renderPlaceholder (some item) escaped ++ if index + 1 = items.length then "" else "," := by
    refine List.mapIdx_eq_mapIdx_iff.mpr ?_
    intro index hindex
    exact renderAll_commaBody (hthis _ (List.getElem_mem hindex)) scope index items.length escaped
  simp only [render, hsequence, Option.bind_some, Value.items?]
  rw [hturns, join_mapIdx_eq_intercalate]

end Render

end Node

theorem render_sequence_eq_commaLoop {path : Path} {context : Context} {items : List Value}
    (hpath : path.isValid = true) (hsequence : context.resolve path = some (.sequence items))
    (hthis : ∀ item ∈ items, item.field? "this" = none) (escaped : Bool) :
    render (Node.placeholderText path escaped) context = render (Node.commaLoop path escaped) context ∧
    render (Node.commaLoop path escaped) context =
      String.intercalate "," (items.map fun item => Node.renderPlaceholder (some item) escaped) := by
  have hroot : (Scope.root context).resolve path = some (.sequence items) := hsequence
  have hprinted : render (Node.placeholderText path escaped) context =
      String.intercalate "," (items.map fun item => Node.renderPlaceholder (some item) escaped) := by
    rw [render_of_parse (Node.parse_placeholderText hpath escaped), Node.renderAll, Node.renderAll,
      Node.render, hroot, Node.renderPlaceholder_sequence, String.append_empty]
  have hlooped : render (Node.commaLoop path escaped) context =
      String.intercalate "," (items.map fun item => Node.renderPlaceholder (some item) escaped) := by
    rw [render_of_parse (Node.parse_commaLoop hpath escaped), Node.renderAll, Node.renderAll,
      Node.render_each_commaBody hroot hthis, String.append_empty]
  exact ⟨hprinted.trans hlooped.symm, hlooped⟩

-- A sequence in the sequence, nothing, and a mapping with a field that is named like a loop variable.
theorem render_sequence_eq_commaLoop_nested :
    let items : List Value :=
      [.sequence [.string "<", .null], .null, .ofPairs [("@last", .bool true)], .string "&"]
    let context := Context.ofPairs [("user", .ofPairs [("tags", .sequence items)])]
    context.resolve ⟨"user.tags"⟩ = some (.sequence items) ∧
      (∀ item ∈ items, item.field? "this" = none) ∧
      render (Node.placeholderText ⟨"user.tags"⟩ true) context = "&lt;,,,[object Object],&amp;" ∧
      render (Node.commaLoop ⟨"user.tags"⟩ true) context = "&lt;,,,[object Object],&amp;" := by
  intro items context
  have hsequence : context.resolve ⟨"user.tags"⟩ = some (.sequence items) := by rfl
  have hthis : ∀ item ∈ items, item.field? "this" = none := by
    simp only [items, List.forall_mem_cons]
    exact ⟨rfl, rfl, rfl, rfl, by simp⟩
  obtain ⟨hequal, hlooped⟩ := render_sequence_eq_commaLoop (by decide) hsequence hthis true
  have htext : String.intercalate "," (items.map fun item => Node.renderPlaceholder (some item) true) =
      "&lt;,,,[object Object],&amp;" := by
    with_unfolding_all rfl
  rw [htext] at hlooped
  exact ⟨hsequence, hthis, hequal.trans hlooped, hlooped⟩

end Stencil
