import Stencil.FilePath
import Mathlib.Data.List.DropRight

namespace Stencil

namespace FilePath

-- The parts that are not idle.
def names (path : List Char) : List (List Char) :=
  (parts path).filter fun part => !isIdle part

variable {base path more part name last : List Char}

theorem isIdle_iff : isIdle part = true ↔ part = [] ∨ part = ['.'] := by
  simp [isIdle]

section Parts

theorem separator_notMem_parts (path : List Char) : ∀ part ∈ parts path, '/' ∉ part := by
  obtain ⟨hfirst, hothers⟩ := separator_not_mem_pieces '/' path
  exact List.forall_mem_cons.mpr ⟨hfirst, hothers⟩

theorem parts_append (base more : List Char) : parts (base ++ '/' :: more) = parts base ++ parts more := by
  simp [parts, pieces_append]

theorem parts_of_notMem (h : '/' ∉ part) : parts part = [part] := by
  simp [parts, pieces_of_notMem h]

theorem steps_append (base more : List Char) : steps (base ++ '/' :: more) = steps base ++ steps more := by
  simp [steps, parts_append]

theorem steps_of_notMem (h : '/' ∉ part) : steps part = (component? part).toList := by
  rw [steps, parts_of_notMem h]
  cases hpart : component? part <;> simp [hpart]

theorem steps_ofParts {parts : List (List Char)} (h : ∀ part ∈ parts, '/' ∉ part) :
    steps (ofParts parts) = parts.filterMap component? := by
  cases parts with
  | nil => rfl
  | cons first others =>
      obtain ⟨hfirst, hothers⟩ := List.forall_mem_cons.mp h
      simp only [ofParts, steps, FilePath.parts, pieces_joinPieces hfirst hothers]

theorem component?_eq_name_iff :
    component? part = some (.name name) ↔ isIdle part = false ∧ part ≠ ['.', '.'] ∧ part = name := by
  unfold component?
  split_ifs with hidle hup <;> simp_all

theorem exists_component? (h : isIdle part = false) : ∃ component, component? part = some component := by
  unfold component?
  rw [h]
  by_cases hup : part = ['.', '.']
  · exact ⟨.up, by simp [hup]⟩
  · exact ⟨.name part, by simp [hup]⟩

end Parts

section Start

theorem first_eq_nil_iff : (pieces '/' path).1 = [] ↔ path = [] ∨ path.head? = some '/' := by
  cases path with
  | nil => simp [pieces]
  | cons c rest =>
      simp only [pieces]
      split_ifs with hc <;> simp [hc]

-- A path says where it starts if its first part is idle, unless it is empty.
theorem start?_eq_none_iff : start? path = none ↔ path = [] ∨ isIdle (pieces '/' path).1 = false := by
  fun_cases start? path with
  | case1 rest => simp [pieces, isIdle]
  | case2 => simp [pieces, isIdle]
  | case3 rest => simp [pieces, isIdle]
  | case4 path htop hdot hhere =>
      refine iff_of_true rfl (or_iff_not_imp_left.mpr fun hpath => ?_)
      obtain ⟨c, rest, rfl⟩ := List.exists_cons_of_ne_nil hpath
      have hc : c ≠ '/' := fun hc => htop rest (by rw [hc])
      refine Bool.eq_false_iff.mpr fun hidle => ?_
      rw [isIdle_iff] at hidle
      simp only [pieces, if_neg hc, reduceCtorEq, false_or, List.cons.injEq, first_eq_nil_iff] at hidle
      obtain ⟨rfl, rfl | hrest⟩ := hidle
      · exact hdot rfl
      · obtain ⟨behind, rfl⟩ := List.head?_eq_some_iff.mp hrest
        exact hhere behind rfl

theorem start?_eq_none_iff_of_ne_nil (h : path ≠ []) :
    start? path = none ↔ path.head? ≠ some '/' ∧ (parts path).head? ≠ some ['.'] := by
  rw [start?_eq_none_iff, Bool.eq_false_iff, Ne, isIdle_iff, first_eq_nil_iff]
  simp [h, parts]

theorem start?_append (base more : List Char) : start? (base ++ '/' :: more) = start? (base ++ ['/']) := by
  match base with
  | [] => rfl
  | [c] => simp only [List.cons_append, List.nil_append, start?]; grind
  | c :: d :: rest => simp only [List.cons_append, start?]; grind

theorem start?_append_slash (h : base ≠ []) : start? (base ++ ['/']) = start? base := by
  match base with
  | [] => contradiction
  | [c] => simp only [List.cons_append, List.nil_append, start?]; grind
  | c :: d :: rest => simp only [List.cons_append, start?]; grind

-- The first character says where a path starts and is no component itself.
theorem components_eq (path : List Char) : components path = (start? path).toList ++ steps path := by
  rw [components, body]
  congr 1
  fun_cases start? path with
  | case1 rest => exact (steps_append [] rest).symm
  | case2 => rfl
  | case3 rest => exact (steps_append [] rest).trans (steps_append ['.'] rest).symm
  | case4 path htop hdot hhere =>
      have hstart : start? path = none := by simp [start?]
      simp [startLength, hstart]

theorem components_append (base more : List Char) :
    components (base ++ '/' :: more) = components (base ++ ['/']) ++ steps more := by
  rw [components_eq, components_eq, start?_append, steps_append, steps_append, List.append_assoc,
    List.append_assoc]
  rfl

theorem components_append_slash (h : base ≠ []) : components (base ++ ['/']) = components base := by
  rw [components_eq, components_eq, start?_append_slash h, steps_append]
  simp [steps, parts, pieces, component?, isIdle]

theorem components_join (h : start? path = none) :
    components (join base path) = components base ++ components path := by
  have hpath : components path = steps path := by rw [components_eq, h]; rfl
  have hslash : path.head? ≠ some '/' := by
    intro hhead
    obtain ⟨rest, rfl⟩ := List.head?_eq_some_iff.mp hhead
    cases h
  rw [join, if_neg hslash, hpath]
  cases hlast : base.getLast? with
  | none =>
      obtain rfl := List.getLast?_eq_none_iff.mp hlast
      exact hpath
  | some c =>
      obtain ⟨front, rfl⟩ := List.getLast?_eq_some_iff.mp hlast
      by_cases hc : c = '/'
      · subst hc
        simpa using components_append front path
      · have hne : front ++ [c] ≠ [] := by simp
        rw [if_neg (by simp [hc]), components_append, components_append_slash hne]

end Start

section LastName

theorem trimIdle_eq (parts : List (List Char)) : trimIdle parts = parts.rdropWhile isIdle := rfl

theorem prefix_trimIdle (parts : List (List Char)) : trimIdle parts <+: parts :=
  List.rdropWhile_prefix isIdle parts

theorem filterMap_trimIdle (parts : List (List Char)) :
    (trimIdle parts).filterMap component? = parts.filterMap component? := by
  induction parts using List.reverseRecOn with
  | nil => rfl
  | append_singleton front part ih =>
      rw [trimIdle_eq] at ih ⊢
      cases hidle : isIdle part with
      | true =>
          have hnone : component? part = none := by simp [component?, hidle]
          rw [List.rdropWhile_concat_pos _ _ _ hidle, List.filterMap_append]
          simpa [hnone] using ih
      | false => rw [List.rdropWhile_concat_neg _ _ _ (by simp [hidle])]

theorem length_take_startLength (path : List Char) :
    (path.take (startLength path)).length = startLength path := by
  refine List.length_take_of_le ?_
  unfold startLength
  fun_cases start? path <;> simp

theorem start?_ofParts {front : List (List Char)} (h : front <+: parts path) (hstart : start? path = none) :
    start? (ofParts front) = none := by
  cases front with
  | nil => rfl
  | cons first others =>
      have hslash := fun part hpart => separator_notMem_parts path part (h.mem hpart)
      obtain ⟨hfirst, hothers⟩ := List.forall_mem_cons.mp hslash
      obtain ⟨rfl, -⟩ := List.cons_prefix_cons.mp h
      rw [ofParts, start?_eq_none_iff, pieces_joinPieces hfirst hothers]
      rcases start?_eq_none_iff.mp hstart with rfl | hidle
      · cases others with
        | nil => exact .inl rfl
        | cons second others => simp [parts, pieces] at h
      · exact .inr hidle

theorem ofParts_of_front {front rest : List (List Char)} (h : front <+: [] :: rest) :
    ofParts front = [] ∨ ∃ behind, ofParts front = '/' :: behind := by
  cases front with
  | nil => exact .inl rfl
  | cons first others =>
      obtain ⟨rfl, -⟩ := List.cons_prefix_cons.mp h
      cases others with
      | nil => exact .inl rfl
      | cons second others => exact .inr ⟨_, rfl⟩

-- Behind its start a path may lose parts at the end, and still starts there.
theorem start?_take_append {front : List (List Char)} (h : front <+: parts (body path)) :
    start? (path.take (startLength path) ++ ofParts front) = start? path := by
  have hhere : ∀ rest, front <+: [] :: rest → start? ('.' :: ofParts front) = some .here := by
    intro rest hrest
    rcases ofParts_of_front hrest with hnil | ⟨behind, hbehind⟩
    · rw [hnil]
      rfl
    · rw [hbehind]
      rfl
  revert h
  fun_cases start? path with
  | case1 rest => exact fun _ => rfl
  | case2 => exact hhere []
  | case3 rest => exact hhere (parts rest)
  | case4 path htop hdot hshere =>
      have hnone : start? path = none := by simp [start?]
      have hlength : startLength path = 0 := by simp [startLength, hnone]
      rw [body, hlength]
      exact fun h => start?_ofParts h hnone

theorem components_take_append {front : List (List Char)} (h : front <+: parts (body path)) :
    components (path.take (startLength path) ++ ofParts front) =
      (start? path).toList ++ front.filterMap component? := by
  have hstart := start?_take_append h
  have hbody : body (path.take (startLength path) ++ ofParts front) = ofParts front := by
    rw [body, startLength, hstart, ← startLength, List.drop_left' (length_take_startLength path)]
  rw [components, hstart, hbody, steps_ofParts]
  exact fun part hpart => separator_notMem_parts _ part (h.mem hpart)

theorem name_notMem_start? (path name : List Char) : .name name ∉ start? path := by
  fun_cases start? path <;> simp

theorem isIdle_of_trimIdle_eq {all front : List (List Char)} (h : trimIdle all = front ++ [part]) :
    isIdle part = false := by
  have hne : all.rdropWhile isIdle ≠ [] := by
    rw [← trimIdle_eq, h]
    simp
  have hlast := List.rdropWhile_last_not isIdle all hne
  simpa [← trimIdle_eq, h] using hlast

theorem fileName?_eq_some_iff :
    fileName? path = some name ↔ (components path).getLast? = some (.name name) := by
  unfold fileName?
  split <;> simp_all

theorem components_parent (h : fileName? path = some name) :
    components path = components (parent path) ++ [.name name] := by
  have hlast := fileName?_eq_some_iff.mp h
  have hdrop : (trimIdle (parts (body path))).dropLast <+: trimIdle (parts (body path)) :=
    List.dropLast_prefix _
  have hfront : trimIdle (trimIdle (parts (body path))).dropLast <+: parts (body path) :=
    (prefix_trimIdle _).trans (hdrop.trans (prefix_trimIdle _))
  have hsteps : steps (body path) = (trimIdle (parts (body path))).filterMap component? :=
    (filterMap_trimIdle _).symm
  rw [parent, components_take_append hfront, filterMap_trimIdle]
  rw [components, hsteps] at hlast ⊢
  rcases List.eq_nil_or_concat' (trimIdle (parts (body path))) with hnil | ⟨front, part, hconcat⟩
  · rw [hnil, List.filterMap_nil, List.append_nil] at hlast
    exact absurd (Option.mem_toList.mp (List.mem_of_mem_getLast? hlast)) (name_notMem_start? path name)
  · obtain ⟨component, hcomponent⟩ := exists_component? (isIdle_of_trimIdle_eq hconcat)
    rw [hconcat, List.filterMap_append, List.filterMap_cons_some hcomponent, List.filterMap_nil,
      ← List.append_assoc] at hlast ⊢
    rw [List.getLast?_concat, Option.some.injEq] at hlast
    rw [hlast, List.dropLast_concat]

theorem components_of_component? (hslash : '/' ∉ last) (h : component? last = some (.name name)) :
    start? last = none ∧ components last = [.name name] := by
  have hstart : start? last = none := by
    rw [start?_eq_none_iff, pieces_of_notMem hslash]
    exact .inr (component?_eq_name_iff.mp h).1
  refine ⟨hstart, ?_⟩
  rw [components_eq, hstart, steps_of_notMem hslash, h]
  rfl

theorem components_withFileName (h : fileName? path = some name) (hslash : '/' ∉ last)
    (hlast : component? last = some (.name last)) :
    components (withFileName path last) = components (parent path) ++ [.name last] := by
  obtain ⟨hstart, hcomponents⟩ := components_of_component? hslash hlast
  rw [withFileName, h, Option.isSome_some, if_pos rfl, components_join hstart, hcomponents]

end LastName

section Names

theorem mem_names : part ∈ names path ↔ part ∈ parts path ∧ isIdle part = false := by
  simp [names]

theorem component?_of_mem_names (hup : ['.', '.'] ∉ parts path) (h : part ∈ names path) :
    component? part = some (.name part) := by
  obtain ⟨hpart, hidle⟩ := mem_names.mp h
  exact component?_eq_name_iff.mpr ⟨hidle, fun hpartUp => hup (hpartUp ▸ hpart), rfl⟩

-- The parts hold nothing but names, unless one leads up.
theorem steps_eq_map_names (h : ['.', '.'] ∉ parts path) : steps path = (names path).map .name := by
  rw [steps, names, ← List.filterMap_eq_map, List.filterMap_filter]
  refine List.filterMap_congr fun part hpart => ?_
  have hup : part ≠ ['.', '.'] := fun hup => h (hup ▸ hpart)
  cases hidle : isIdle part <;> simp [component?, hidle, hup]

theorem forall_isName_iff :
    (∀ component ∈ components path, component.isName = true) ↔
      start? path = none ∧ ['.', '.'] ∉ parts path := by
  rw [components_eq]
  constructor
  · intro h
    have hstart : start? path = none := by
      refine Option.eq_none_iff_forall_ne_some.mpr fun component hcomponent => ?_
      have hname := h component (by simp [hcomponent])
      cases component with
      | name name => exact name_notMem_start? path name hcomponent
      | top => cases hname
      | here => cases hname
      | up => cases hname
    refine ⟨hstart, fun hup => ?_⟩
    have hmem : .up ∈ steps path := List.mem_filterMap.mpr ⟨['.', '.'], hup, by decide⟩
    exact absurd (h .up (List.mem_append_right _ hmem)) (by decide)
  · rintro ⟨hstart, hup⟩
    rw [hstart, steps_eq_map_names hup]
    simp [Component.isName]

theorem components_eq_map_names (h : ∀ component ∈ components path, component.isName = true) :
    components path = (names path).map .name := by
  obtain ⟨hstart, hup⟩ := forall_isName_iff.mp h
  rw [components_eq, hstart, steps_eq_map_names hup]
  rfl

theorem names_of_components_eq {all : List (List Char)} (h : components path = all.map .name) :
    names path = all ∧ ['.', '.'] ∉ parts path := by
  have hnames : ∀ component ∈ components path, component.isName = true := by
    simp [h, Component.isName]
  refine ⟨?_, (forall_isName_iff.mp hnames).2⟩
  have hinjective : Function.Injective Component.name := fun _ _ => Component.name.inj
  exact hinjective.list_map ((components_eq_map_names hnames).symm.trans h)

end Names

end FilePath

end Stencil
