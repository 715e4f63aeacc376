import Stencil.Proofs.Builder.Run
import Stencil.Proofs.Usage.Mentions
import Stencil.Template

namespace Stencil

namespace Tag

-- The path that a tag carries, and how it reads it.
def use? : Tag → Option (Path × Usage)
  | .placeholder path _ => some (path, .output)
  | .opener kind path => some (path, Usage.ofKind kind)
  | .otherwise => none
  | .closer _ => none

end Tag

namespace Mention

def use (m : Mention) : Path × Usage :=
  (m.path, m.usage)

-- The tags are spelled in the text one behind the other, in this order.
def StandIn (padded : Bool) : List Mention → List Char → Prop
  | [], _ => True
  | m :: rest, text => ∃ before tag spelling behind, text = before ++ (spelling ++ behind) ∧
      tag.use? = some m.use ∧ Tag.Spelled padded tag spelling ∧ StandIn padded rest behind

variable {padded : Bool} {mentions first second : List Mention} {text before behind : List Char}

theorem StandIn.prepend (h : StandIn padded mentions text) (before : List Char) :
    StandIn padded mentions (before ++ text) := by
  cases mentions with
  | nil => trivial
  | cons m rest =>
      obtain ⟨more, tag, spelling, behind, rfl, htag⟩ := h
      exact ⟨before ++ more, tag, spelling, behind, (List.append_assoc ..).symm, htag⟩

theorem StandIn.append (hfirst : StandIn padded first before) (hsecond : StandIn padded second behind) :
    StandIn padded (first ++ second) (before ++ behind) := by
  induction first generalizing before with
  | nil => exact hsecond.prepend before
  | cons m rest ih =>
      obtain ⟨more, tag, spelling, last, rfl, huse, hspelled, hrest⟩ := hfirst
      exact ⟨more, tag, spelling, last ++ behind, by simp, huse, hspelled, ih hrest⟩

theorem StandIn.tag {m : Mention} {tag : Tag} {spelling : List Char} (huse : tag.use? = some m.use)
    (hspelled : Tag.Spelled padded tag spelling) (h : StandIn padded mentions text) :
    StandIn padded (m :: mentions) (spelling ++ text) :=
  ⟨[], tag, spelling, text, rfl, huse, hspelled, h⟩

end Mention

namespace Node

variable {padded : Bool} {nodes : List Node} {spelling : List Char}

-- The order of the tree is the order of the text.
theorem Spells.standIn (h : Spells padded nodes spelling) (looped : Bool) :
    Mention.StandIn padded (mentionsAll looped nodes) spelling := by
  induction h generalizing looped with
  | nil => trivial
  | text content _ ih => exact (ih looped).prepend content.toList
  | placeholder htag _ ih => exact .tag rfl htag (ih looped)
  | @block kind path body rest opener inner closer spelling hopener _ _ _ ihBody ih =>
      have hrest := (ih looped).prepend closer
      have hinside := (ihBody (looped || kind = .each)).append hrest
      have hblock := Mention.StandIn.tag (m := ⟨path, Usage.ofKind kind, looped⟩) rfl hopener hinside
      simpa [mentionsAll, mentions] using hblock
  | @ifElse path thenBody elseBody rest opener thenInner elseTag elseInner closer spelling
      hopener _ _ _ _ _ ihThen ihElse ih =>
      have hrest := (ih looped).prepend closer
      have helse := ((ihElse looped).append hrest).prepend elseTag
      have hinside := (ihThen looped).append helse
      have hblock := Mention.StandIn.tag (m := ⟨path, .condition, looped⟩) rfl hopener hinside
      simpa [mentionsAll, mentions] using hblock

end Node

namespace Usage

-- The first entry of each path.
def firsts (entries : List (Path × Usage)) : List (Path × Usage) :=
  entries.eraseDupsBy fun entry other => entry.1 = other.1

-- The uses outside of loops, without those of loop elements and loop variables, each path at its first.
def firstUses (mentions : List Mention) : List (Path × Usage) :=
  firsts (((mentions.filter (!·.looped)).map Mention.use).filter (!·.1.isLocal))

variable {mentions : List Mention} {path : Path} {usage : Usage}

theorem firsts_cons (entry : Path × Usage) (entries : List (Path × Usage)) :
    firsts (entry :: entries) = entry :: firsts (entries.filter (·.1 ≠ entry.1)) := by
  simp [firsts, List.eraseDupsBy_cons]

-- Dropping entries by their path drops all of a path or none.
theorem find?_filter_path (keep : Path → Bool) (path : Path) (entries : List (Path × Usage)) :
    (entries.filter fun entry => keep entry.1).find? (·.1 = path) =
      if keep path then entries.find? (·.1 = path) else none := by
  induction entries with
  | nil => simp
  | cons entry rest ih =>
      by_cases hpath : entry.1 = path
      · cases hkeep : keep path with
        | true => simp [hpath, hkeep]
        | false => simpa [hpath, hkeep] using ih
      · cases hkeep : keep entry.1 <;> simpa [hpath, hkeep] using ih

-- An entry stays exactly when it is the first of its path.
theorem mem_firsts (entry : Path × Usage) : ∀ entries : List (Path × Usage),
    entry ∈ firsts entries ↔ entries.find? (·.1 = entry.1) = some entry
  | [] => by simp [firsts]
  | first :: rest => by
    have ih := mem_firsts entry (rest.filter (·.1 ≠ first.1))
    have hrest := find?_filter_path (· ≠ first.1) entry.1 rest
    rw [firsts_cons, List.mem_cons, ih, hrest]
    by_cases hpath : entry.1 = first.1
    · rw [List.find?_cons_of_pos (by simp [hpath]), Option.some_inj]
      simpa [hpath] using eq_comm
    · have hne : entry ≠ first := fun heq => hpath (congrArg Prod.fst heq)
      simp [hpath, hne, Ne.symm hpath]
termination_by entries => entries.length
decreasing_by
  have hlength := List.length_filter_le (fun other => decide (other.1 ≠ first.1)) rest
  simp only [List.length_cons]
  omega

-- A use that recording it adds to the list.
def isNew (listed : List (Path × Usage)) (entry : Path × Usage) : Bool :=
  !(entry.1.isLocal || listed.any (·.1 = entry.1))

-- Behind an added entry the same uses are new, without those of its path.
theorem isNew_concat (listed : List (Path × Usage)) (entry other : Path × Usage) :
    isNew (listed ++ [entry]) other = (decide (other.1 ≠ entry.1) && isNew listed other) := by
  unfold isNew
  by_cases hother : other.1 = entry.1
  · simp [hother]
  · simp [hother, Ne.symm hother]

-- Recording uses one by one adds the first use of every path that was not listed before.
theorem foldl_record (listed entries : List (Path × Usage)) :
    entries.foldl (fun known entry => record known entry.1 entry.2) listed =
      listed ++ firsts (entries.filter (isNew listed)) := by
  induction entries generalizing listed with
  | nil => simp [firsts]
  | cons entry rest ih =>
      rw [List.foldl_cons, ih]
      by_cases hskip : (entry.1.isLocal || listed.any (·.1 = entry.1)) = true
      · have hrecord : record listed entry.1 entry.2 = listed := if_pos hskip
        have hold : isNew listed entry = false := by rw [isNew, hskip, Bool.not_true]
        rw [hrecord, List.filter_cons_of_neg (by simp [hold])]
      · have hrecord : record listed entry.1 entry.2 = listed ++ [entry] := if_neg hskip
        have hnew : isNew listed entry = true := by
          simpa only [isNew, Bool.not_eq_true', Bool.not_eq_true] using hskip
        rw [hrecord, List.filter_cons_of_pos hnew, firsts_cons, List.filter_filter,
          funext (isNew_concat listed entry), List.append_assoc, List.singleton_append]

theorem gather_eq_firstUses (mentions : List Mention) : gather [] mentions = firstUses mentions := by
  have hnew : isNew [] = fun entry => !entry.1.isLocal := by
    funext entry
    simp [isNew]
  have hfold := foldl_record [] ((mentions.filter (!·.looped)).map Mention.use)
  rw [List.foldl_map, hnew] at hfold
  exact hfold

theorem mem_firstUses : (path, usage) ∈ firstUses mentions ↔
    path.isLocal = false ∧ ∃ m, mentions.find? (fun m => !m.looped && m.path = path) = some m ∧
      m.usage = usage := by
  have hmentions : ((mentions.filter (!·.looped)).map Mention.use).find? (·.1 = path) =
      (mentions.find? fun m => !m.looped && m.path = path).map Mention.use := by
    rw [List.find?_map, List.find?_filter]
    congr 2
    funext m
    rw [Bool.decide_and, Bool.decide_eq_true, Bool.decide_eq_true]
    rfl
  rw [firstUses, mem_firsts, find?_filter_path (!·.isLocal), hmentions]
  cases hlocal : path.isLocal with
  | true => simp
  | false =>
      constructor
      · intro h
        obtain ⟨m, hm, huse⟩ := Option.map_eq_some_iff.mp h
        exact ⟨rfl, m, hm, congrArg Prod.snd huse⟩
      · rintro ⟨-, m, hm, rfl⟩
        have hfound := List.find?_some hm
        simp only [Bool.and_eq_true, decide_eq_true_eq] at hfound
        rw [if_pos Bool.not_false, hm, Option.map_some, Mention.use, hfound.2]

end Usage

namespace Template

variable {options : Options} {source : String} {template : Template}

theorem usages_eq_firstUses (hparse : parseWith options source = .ok template) :
    Mention.StandIn options.allowPadding (Node.mentionsAll false template.nodes) source.toList ∧
    template.usages = Usage.firstUses (Node.mentionsAll false template.nodes) ∧
    (template.usages.map Prod.fst).Nodup ∧
    ∀ path usage, (path, usage) ∈ template.usages ↔
      path.isLocal = false ∧ ∃ m, (Node.mentionsAll false template.nodes).find?
        (fun m => !m.looped && m.path = path) = some m ∧ m.usage = usage := by
  have husages : template.usages = Usage.firstUses (Node.mentionsAll false template.nodes) := by
    rw [usages, Usage.collectAll_eq_gather, Usage.gather_eq_firstUses]
  obtain ⟨nodes, hnodes, rfl⟩ := parseWith_eq_ok_iff.mp hparse
  refine ⟨(Node.spells_of_parse hnodes).standIn false, husages, ?_, ?_⟩
  · have hempty : (([] : List (Path × Usage)).map Prod.fst).Nodup := List.nodup_nil
    exact Usage.nodup_collectAll hempty nodes
  · intro path usage
    rw [husages, Usage.mem_firstUses]

-- The path `c` is read in a loop body first, where it does not count, and `b` is written after it was looped over.
theorem usages_eq_firstUses_looped :
    ∃ template,
      parseWith {} (Node.openerText .each ⟨"b"⟩ ++ Node.placeholderText ⟨"c"⟩ true ++
        Node.closerText .each ++ (Node.openerText .ifTrue ⟨"c"⟩ ++ Node.elseText ++
          Node.placeholderText ⟨"b"⟩ true ++ Node.closerText .ifTrue)) = .ok template ∧
      Mention.StandIn false (Node.mentionsAll false template.nodes) template.source.toList ∧
      Usage.firstUses (Node.mentionsAll false template.nodes) =
        [(⟨"b"⟩, .sequence), (⟨"c"⟩, .condition)] := by
  have hnodes : Node.parse {} (Node.openerText .each ⟨"b"⟩ ++ Node.placeholderText ⟨"c"⟩ true ++
      Node.closerText .each ++ (Node.openerText .ifTrue ⟨"c"⟩ ++ Node.elseText ++
        Node.placeholderText ⟨"b"⟩ true ++ Node.closerText .ifTrue)).toList =
      .ok [.block .each ⟨"b"⟩ [.placeholder ⟨"c"⟩ true],
        .ifElse ⟨"c"⟩ [] [.placeholder ⟨"b"⟩ true]] := by
    rw [Node.parse_lenient rfl]
    with_unfolding_all rfl
  have hparse := parseWith_eq_ok_iff.mpr ⟨_, hnodes, rfl⟩
  obtain ⟨hstand, husages, -⟩ := usages_eq_firstUses hparse
  refine ⟨_, hparse, hstand, ?_⟩
  rw [← husages]
  decide

end Template

end Stencil
