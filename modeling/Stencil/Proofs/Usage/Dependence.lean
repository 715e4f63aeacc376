import Stencil.Proofs.Usage.Mentions
import Stencil.Template

namespace Stencil

namespace Scope

-- Both scopes give a tag the same value. In a loop body the first segment of its path must be found alike,
-- since elements are laid over the scope before the rest of the path is gone down.
def Agree (scope other : Scope) (m : Mention) : Prop :=
  if m.looped then scope.lookup m.path.first = other.lookup m.path.first
  else scope.resolve m.path = other.resolve m.path

variable {scope other : Scope} {m : Mention}

theorem resolve_congr {path : Path} (h : scope.lookup path.first = other.lookup path.first) :
    scope.resolve path = other.resolve path := by
  rw [resolve, h, resolve]

theorem Agree.resolve_eq (h : scope.Agree other m) : scope.resolve m.path = other.resolve m.path := by
  unfold Agree at h
  split at h
  · exact resolve_congr h
  · exact h

-- A turn of a loop adds the same to both scopes.
theorem Agree.item (h : scope.Agree other m) (hlooped : m.looped = true) (element : Value)
    (index count : Nat) :
    (Scope.item scope element index count).Agree (.item other element index count) m := by
  rw [Agree, if_pos hlooped] at h ⊢
  rw [lookup, lookup, h]

end Scope

namespace Node

variable {scope other : Scope}

mutual

theorem render_congr (scope other : Scope) (looped : Bool) : ∀ node : Node,
    (∀ m ∈ node.mentions looped, scope.Agree other m) → render scope node = render other node
  | .text _, _ => by rw [render, render]
  | .placeholder path escaped, h => by
    have hpath := (h _ List.mem_cons_self).resolve_eq
    rw [render, render, hpath]
  | .block kind path body, h => by
    obtain ⟨hfirst, hbody⟩ := List.forall_mem_cons.mp h
    have hpath := hfirst.resolve_eq
    cases kind with
    | ifTrue | ifFalse =>
        rw [render, render, hpath, renderAll_congr scope other _ body hbody]
    | each =>
        have hturn : ∀ element index count, renderAll (.item scope element index count) body =
            renderAll (.item other element index count) body := by
          intro element index count
          refine renderAll_congr _ _ true body ?_
          intro m hm
          have hlooped : (looped || decide (BlockKind.each = .each)) = true := Bool.or_true looped
          rw [hlooped] at hbody
          exact (hbody m hm).item (looped_of_mem_mentionsAll hm) element index count
        simp only [render, hpath, hturn]
  | .ifElse path thenBody elseBody, h => by
    obtain ⟨hfirst, hbodies⟩ := List.forall_mem_cons.mp h
    obtain ⟨hthen, helse⟩ := List.forall_mem_append.mp hbodies
    have hpath := hfirst.resolve_eq
    rw [render, render, hpath, renderAll_congr scope other looped thenBody hthen,
      renderAll_congr scope other looped elseBody helse]

theorem renderAll_congr (scope other : Scope) (looped : Bool) : ∀ nodes : List Node,
    (∀ m ∈ mentionsAll looped nodes, scope.Agree other m) → renderAll scope nodes = renderAll other nodes
  | [], _ => by rw [renderAll, renderAll]
  | node :: rest, h => by
    obtain ⟨hnode, hrest⟩ := List.forall_mem_append.mp h
    rw [renderAll, renderAll, render_congr scope other looped node hnode,
      renderAll_congr scope other looped rest hrest]

end

end Node

namespace Template

theorem render_eq_of_usages (template : Template) {context other : Context}
    (hlisted : ∀ entry ∈ template.usages, context.resolve entry.1 = other.resolve entry.1)
    (hlooped : ∀ m ∈ Node.mentionsAll false template.nodes,
      m.looped = true ∨ m.path.isLocal = true →
        context.get? m.path.first = other.get? m.path.first) :
    template.render context = template.render other := by
  refine Node.renderAll_congr _ _ false template.nodes ?_
  intro m hm
  unfold Scope.Agree
  split
  · next h => exact hlooped m hm (.inl h)
  · next h =>
    cases hlocal : m.path.isLocal with
    | true => exact Scope.resolve_congr (hlooped m hm (.inr hlocal))
    | false =>
        have hmem : m.path ∈ template.usages.map Prod.fst := by
          rw [usages, Usage.collectAll_eq_gather]
          exact Usage.mem_gather_of_mem hm (by simpa using h) hlocal
        obtain ⟨entry, hentry, hpath⟩ := List.mem_map.mp hmem
        exact hpath ▸ hlisted entry hentry

-- The contexts differ in a field beside the one that is read. The loop falls back to `title`, and `this`
-- stands behind it once more, where only the context can answer.
theorem render_eq_of_usages_beside :
    let nodes : List Node := [.placeholder ⟨"user.name"⟩ true,
      .block .each ⟨"items"⟩ [.placeholder ⟨"this"⟩ true, .placeholder ⟨"title"⟩ true],
      .placeholder ⟨"this"⟩ true]
    let template : Template := { source := Node.spellAll nodes, nodes }
    let context := Context.ofPairs [("items", .sequence [.null, .bool true]), ("title", .string "x"),
      ("user", .ofPairs [("name", .string "Ada")])]
    let other := Context.ofPairs [("items", .sequence [.null, .bool true]), ("title", .string "x"),
      ("user", .ofPairs [("age", .int 36), ("name", .string "Ada")])]
    (∀ entry ∈ template.usages, context.resolve entry.1 = other.resolve entry.1) ∧
      (∀ m ∈ Node.mentionsAll false template.nodes, m.looped = true ∨ m.path.isLocal = true →
        context.get? m.path.first = other.get? m.path.first) ∧
      template.render context = template.render other := by
  intro nodes template context other
  have husages : template.usages = [(⟨"user.name"⟩, .output), (⟨"items"⟩, .sequence)] := by decide
  have hlisted : ∀ entry ∈ template.usages, context.resolve entry.1 = other.resolve entry.1 := by
    rw [husages]
    exact List.forall_mem_cons.mpr ⟨by rfl, List.forall_mem_cons.mpr ⟨by rfl, by simp⟩⟩
  have hlooped : ∀ m ∈ Node.mentionsAll false template.nodes, m.looped = true ∨ m.path.isLocal = true →
      context.get? m.path.first = other.get? m.path.first := by
    intro m hm hfalls
    simp only [template, nodes, Node.mentionsAll, Node.mentions, List.append_nil, List.cons_append,
      List.nil_append, List.mem_cons, List.not_mem_nil, or_false] at hm
    rcases hm with rfl | rfl | rfl | rfl | rfl
    · exact absurd hfalls (by decide)
    · exact absurd hfalls (by decide)
    · rfl
    · rfl
    · rfl
  exact ⟨hlisted, hlooped, render_eq_of_usages template hlisted hlooped⟩

end Template

end Stencil
