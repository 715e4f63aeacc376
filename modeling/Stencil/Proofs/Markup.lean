import Stencil.Proofs.Builder.Run
import Stencil.Proofs.Escape
import Stencil.Template

namespace Stencil

-- Text made of stretches of a source and of escaped values, one behind the other.
inductive Composed (source : List Char) : List Char → Prop
  | nil : Composed source []
  | literal {part rest : List Char} (hpart : part <:+: source) (hrest : Composed source rest) :
      Composed source (part ++ rest)
  | value (text : List Char) {rest : List Char} (hrest : Composed source rest) :
      Composed source (escapeChars text ++ rest)

namespace Composed

variable {source output first second : List Char}

theorem append (hfirst : Composed source first) (hsecond : Composed source second) :
    Composed source (first ++ second) := by
  induction hfirst with
  | nil => exact hsecond
  | literal hpart _ ih =>
      rw [List.append_assoc]
      exact .literal hpart ih
  | value text _ ih =>
      rw [List.append_assoc]
      exact .value text ih

theorem join {texts : List String} (h : ∀ text ∈ texts, Composed source text.toList) :
    Composed source (String.join texts).toList := by
  induction texts with
  | nil => exact .nil
  | cons text rest ih =>
      obtain ⟨htext, hrest⟩ := List.forall_mem_cons.mp h
      simpa using htext.append (ih hrest)

theorem not_mem_markup (h : Composed source output) (hsource : ∀ c ∈ source, c ∉ markup) :
    ∀ c ∈ output, c ∉ markup := by
  induction h with
  | nil => simp
  | literal hpart _ ih =>
      intro c hc
      rcases List.mem_append.mp hc with hc | hc
      · exact hsource c (hpart.subset hc)
      · exact ih c hc
  | value text _ ih =>
      intro c hc
      rcases List.mem_append.mp hc with hc | hc
      · exact not_mem_markup_of_mem_escapeChars hc
      · exact ih c hc

theorem startsEntity (h : Composed source output) (hsource : '&' ∉ source) :
    ∀ after, '&' :: after <:+ output → StartsEntity ('&' :: after) := by
  induction h with
  | nil =>
      intro after hsuffix
      cases List.suffix_nil.mp hsuffix
  | literal hpart _ ih =>
      intro after hsuffix
      refine startsEntity_of_suffix_append ?_ ih hsuffix
      intro after hinside
      exact absurd (hpart.subset (hinside.subset List.mem_cons_self)) hsource
  | value text _ ih =>
      intro after hsuffix
      exact startsEntity_of_suffix_append (fun _ => startsEntity_of_suffix_escapeChars) ih hsuffix

end Composed

namespace Node

variable {padded : Bool} {nodes : List Node} {source spelling : List Char}

theorem composed_renderPlaceholder (source : List Char) (value : Option Value) :
    Composed source (renderPlaceholder value true).toList := by
  cases value with
  | none => exact .nil
  | some value =>
      have hvalue : Composed source (escapeChars value.toText.toList ++ []) := .value _ .nil
      rwa [List.append_nil, ← toList_escape] at hvalue

theorem composed_block {body : List Node} (kind : BlockKind) (path : Path) (scope : Scope)
    (hbody : ∀ scope, Composed source (renderAll scope body).toList) :
    Composed source (render scope (.block kind path body)).toList := by
  cases kind with
  | ifTrue =>
      rw [render]
      split
      · exact hbody scope
      · exact .nil
  | ifFalse =>
      rw [render]
      split
      · exact .nil
      · exact hbody scope
  | each =>
      rw [render]
      split
      · refine .join ?_
        intro text htext
        obtain ⟨index, hindex, rfl⟩ := List.mem_mapIdx.mp htext
        exact hbody _
      · exact .nil

-- The induction is on the spelling: it shows where in the source a text stands, and how many braces there are
-- around a placeholder.
theorem Spells.composed (h : Spells padded nodes spelling) (hsource : spelling <:+: source)
    (hraw : ¬['{', '{', '{'] <:+: source) (scope : Scope) :
    Composed source (renderAll scope nodes).toList := by
  induction h generalizing scope with
  | nil => exact .nil
  | text content _ ih =>
      rw [renderAll, String.toList_append]
      have hrest := ih ((List.suffix_append _ _).isInfix.trans hsource) scope
      have hcontent := (List.prefix_append _ _).isInfix.trans hsource
      exact .literal hcontent hrest
  | @placeholder path escaped rest tag spelling htag _ ih =>
      rw [renderAll, String.toList_append]
      have hrest := ih ((List.suffix_append _ _).isInfix.trans hsource) scope
      have hescaped : escaped = true := by
        cases htag with
        | @raw _ left right _ _ =>
            have hbraces : ['{', '{', '{'] <+: Tag.braced 3 (left ++ path.text.toList ++ right) := ⟨_, rfl⟩
            exact absurd ((hbraces.trans (List.prefix_append _ _)).isInfix.trans hsource) hraw
        | escaped => rfl
      subst hescaped
      exact (composed_renderPlaceholder source _).append hrest
  | @block kind path body rest opener inner closer spelling _ _ _ _ ihBody ih =>
      have hinner : inner <:+: opener ++ inner ++ closer ++ spelling :=
        ⟨opener, closer ++ spelling, by simp⟩
      rw [renderAll, String.toList_append]
      have hrest := ih ((List.suffix_append _ _).isInfix.trans hsource) scope
      exact (composed_block kind path scope (ihBody (hinner.trans hsource))).append hrest
  | @ifElse path thenBody elseBody rest opener thenInner elseTag elseInner closer spelling
      _ _ _ _ _ _ ihThen ihElse ih =>
      have hthen : thenInner <:+: opener ++ thenInner ++ elseTag ++ elseInner ++ closer ++ spelling :=
        ⟨opener, elseTag ++ elseInner ++ closer ++ spelling, by simp⟩
      have helse : elseInner <:+: opener ++ thenInner ++ elseTag ++ elseInner ++ closer ++ spelling :=
        ⟨opener ++ thenInner ++ elseTag, closer ++ spelling, by simp⟩
      rw [renderAll, String.toList_append]
      have hrest := ih ((List.suffix_append _ _).isInfix.trans hsource) scope
      refine Composed.append ?_ hrest
      rw [render]
      split
      · exact ihThen (hthen.trans hsource) scope
      · exact ihElse (helse.trans hsource) scope

end Node

namespace Template

variable {options : Options} {source : String} {template : Template}

theorem composed_render (hparse : parseWith options source = .ok template)
    (hraw : ¬['{', '{', '{'] <:+: source.toList) (context : Context) :
    Composed source.toList (template.render context).toList := by
  obtain ⟨nodes, hnodes, rfl⟩ := parseWith_eq_ok_iff.mp hparse
  exact (Node.spells_of_parse hnodes).composed (List.infix_refl _) hraw _

theorem render_markup_free (hmarkup : ∀ c ∈ source.toList, c ∉ markup)
    (hraw : ¬['{', '{', '{'] <:+: source.toList) (hparse : parseWith options source = .ok template)
    (context : Context) :
    (∀ c ∈ (template.render context).toList, c ∉ markup) ∧
      ('&' ∉ source.toList → ∀ after, '&' :: after <:+ (template.render context).toList →
        StartsEntity ('&' :: after)) := by
  have hcomposed := composed_render hparse hraw context
  exact ⟨hcomposed.not_mem_markup hmarkup, hcomposed.startsEntity⟩

-- A loop over values that are nothing but special characters.
theorem render_markup_free_loop :
    ∃ template,
      parseWith {} (Node.openerText .each ⟨"a"⟩ ++ Node.placeholderText ⟨"this"⟩ true ++
        Node.closerText .each) = .ok template ∧
      template.render (Context.empty.insert "a" (.sequence [.string "<", .string "&"])) = "&lt;&amp;" ∧
      ∀ context, (∀ c ∈ (template.render context).toList, c ∉ markup) ∧
        ∀ after, '&' :: after <:+ (template.render context).toList → StartsEntity ('&' :: after) := by
  have hnodes : Node.parse {} (Node.openerText .each ⟨"a"⟩ ++ Node.placeholderText ⟨"this"⟩ true ++
      Node.closerText .each).toList = .ok [.block .each ⟨"a"⟩ [.placeholder ⟨"this"⟩ true]] := by
    rw [Node.parse_lenient rfl]
    with_unfolding_all rfl
  have hparse := parseWith_eq_ok_iff.mpr ⟨_, hnodes, rfl⟩
  have hplain : ∀ c ∈ (Node.openerText .each ⟨"a"⟩ ++ Node.placeholderText ⟨"this"⟩ true ++
      Node.closerText .each).toList, c ∉ markup := by
    simp [markup, Node.openerText, Node.placeholderText, Node.closerText, BlockKind.keyword]
  refine ⟨_, hparse, by with_unfolding_all rfl, ?_⟩
  intro context
  obtain ⟨hmarkup, hentity⟩ := render_markup_free hplain (by decide) hparse context
  exact ⟨hmarkup, hentity (by decide)⟩

end Template

end Stencil
