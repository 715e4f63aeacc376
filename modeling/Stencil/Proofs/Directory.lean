import Stencil.Directory
import Stencil.Proofs.FilePath

namespace Stencil

namespace FileTree

variable {tree : FileTree} {place stop : List String} {entry : FileEntry}

theorem eq_foldl_of_walk {names : List String} (h : tree.walk place names = .ok (stop, entry)) :
    stop = names.foldl move place := by
  induction names generalizing place with
  | nil =>
      simp only [walk] at h
      split at h <;> cases h
      rfl
  | cons name rest ih =>
      simp only [walk] at h
      split at h
      · cases h
      · cases h
      · split_ifs at h
        exact ih h

theorem move_ofList {part : List Char} (h : part ≠ ['.', '.']) (place : List String) :
    move place (String.ofList part) =
      place ++ if FilePath.isIdle part then [] else [String.ofList part] := by
  have hspelled : ∀ text : String, String.ofList part = text ↔ part = text.toList :=
    fun text => ⟨fun h => by rw [← h, String.toList_ofList], fun h => by rw [h, String.ofList_toList]⟩
  have hup : part ≠ "..".toList := h
  simp only [move, hspelled, FilePath.isIdle, hup, if_false, Bool.or_eq_true, decide_eq_true_eq]
  split_ifs <;> simp_all

theorem foldl_move {parts : List (List Char)} (hup : ['.', '.'] ∉ parts) (place : List String) :
    (parts.map String.ofList).foldl move place =
      place ++ (parts.filter fun part => !FilePath.isIdle part).map String.ofList := by
  induction parts generalizing place with
  | nil => simp
  | cons part rest ih =>
      rw [List.map_cons, List.foldl_cons, ih (List.not_mem_of_not_mem_cons hup),
        move_ofList (Ne.symm (List.ne_of_not_mem_cons hup))]
      cases hidle : FilePath.isIdle part <;> simp [hidle]

-- A path that does not lead up ends below the place where it starts.
theorem eq_append_of_walk {path : String} (hup : ['.', '.'] ∉ FilePath.parts path.toList)
    (h : tree.walk place (namesOf path) = .ok (stop, entry)) :
    stop = place ++ (FilePath.names path.toList).map String.ofList := by
  rw [eq_foldl_of_walk h]
  exact foldl_move hup place

end FileTree

namespace Directory

-- The name goes down from the root at once, and nothing in it leads up.
def StaysBelow (name : String) : Prop :=
  name ≠ "" ∧ name.toList.head? ≠ some '/' ∧ (FilePath.parts name.toList).head? ≠ some ['.'] ∧
    ['.', '.'] ∉ FilePath.parts name.toList

-- What is added to the last name.
def suffix (source : Directory) : List Char :=
  match source.extension with
  | some extension => '.' :: extension.toList
  | none => []

variable {source : Directory} {name folder path : String} {before : List (List Char)} {last : List Char}

theorem components_of_accepts (h : accepts name = true) :
    ∀ component ∈ FilePath.components name.toList, component.isName = true := by
  simp only [accepts, Bool.and_eq_true, List.all_eq_true] at h
  exact h.2

theorem accepts_iff : accepts name = true ↔ StaysBelow name := by
  have hempty : name ≠ "" ↔ name.toList ≠ [] := by simp
  simp only [accepts, StaysBelow, Bool.and_eq_true, List.all_eq_true, decide_eq_true_eq, hempty,
    FilePath.forall_isName_iff]
  refine and_congr_right fun hname => ?_
  rw [FilePath.start?_eq_none_iff_of_ne_nil hname, and_assoc]

theorem exists_names_eq (h : accepts name = true) :
    ∃ before last, FilePath.names name.toList = before ++ [last] := by
  obtain ⟨hstart, -⟩ := FilePath.forall_isName_iff.mp (components_of_accepts h)
  have hname : name.toList ≠ [] := by simpa using (accepts_iff.mp h).1
  have hidle := (FilePath.start?_eq_none_iff.mp hstart).resolve_left hname
  have hne := List.ne_nil_of_mem (FilePath.mem_names.mpr ⟨List.mem_cons_self, hidle⟩)
  exact (List.eq_nil_or_concat' _).resolve_left hne

-- The last name stays one when the suffix is added.
theorem component?_append_suffix (h : FilePath.component? last = some (.name last)) :
    FilePath.component? (last ++ source.suffix) = some (.name (last ++ source.suffix)) := by
  obtain ⟨hidle, -, -⟩ := FilePath.component?_eq_name_iff.mp h
  unfold suffix
  split
  · match last with
    | [] => cases hidle
    | [c] =>
        have hc : c ≠ '.' := by
          rintro rfl
          cases hidle
        simp [FilePath.component?, FilePath.isIdle, hc]
    | c :: d :: rest => simp [FilePath.component?, FilePath.isIdle]
  · rwa [List.append_nil]

theorem slash_notMem_suffix (h : ∀ extension ∈ source.extension, '/' ∉ extension.toList) :
    '/' ∉ source.suffix := by
  unfold suffix
  split
  · next extension hextension => simpa using h extension hextension
  · simp

theorem components_fileBelow (hslash : '/' ∉ source.suffix) (h : accepts name = true)
    (hnames : FilePath.names name.toList = before ++ [last]) (folder : String) :
    FilePath.components (source.fileBelow folder name).toList =
      FilePath.components folder.toList ++ (before ++ [last ++ source.suffix]).map .name := by
  obtain ⟨hstart, hup⟩ := FilePath.forall_isName_iff.mp (components_of_accepts h)
  have hjoin : FilePath.components (FilePath.join folder.toList name.toList) =
      FilePath.components folder.toList ++ before.map .name ++ [.name last] := by
    rw [FilePath.components_join hstart, FilePath.components_eq_map_names (components_of_accepts h), hnames]
    simp
  have hfile := FilePath.fileName?_eq_some_iff.mpr (hjoin ▸ List.getLast?_concat)
  unfold fileBelow
  cases hextension : source.extension with
  | none =>
      have hsuffix : source.suffix = [] := by simp [suffix, hextension]
      simpa [hsuffix] using hjoin
  | some extension =>
      have hsuffix : '.' :: extension.toList = source.suffix := by simp [suffix, hextension]
      have hmem : last ∈ FilePath.names name.toList := by simp [hnames]
      have hnew : '/' ∉ last ++ source.suffix := by
        have hlast := FilePath.separator_notMem_parts _ last (FilePath.mem_names.mp hmem).1
        simpa using ⟨hlast, hslash⟩
      have hparent := FilePath.components_parent hfile
      rw [hjoin, List.append_cancel_right_eq] at hparent
      have hwith := FilePath.components_withFileName hfile hnew
        (component?_append_suffix (FilePath.component?_of_mem_names hup hmem))
      simp only [hfile, Option.getD_some, hsuffix, String.toList_ofList]
      rw [hwith, ← hparent, List.map_append, List.append_assoc]
      rfl

theorem pathFor_eq_ok_iff :
    source.pathFor name = .ok path ↔ StaysBelow name ∧ path = source.fileBelow source.root name := by
  rw [pathFor, ← accepts_iff]
  split_ifs with h <;> simp [h, eq_comm]

theorem fetch_of_pathFor_error {error : Error} (h : source.pathFor name = .error error) :
    error = .templateLoad name refusal ∧ source.fetch name = .error error := by
  unfold pathFor at h
  split_ifs at h with haccepts
  cases h
  exact ⟨rfl, fetch_of_not_accepts source (Bool.eq_false_iff.mpr haccepts)⟩

theorem names_fileBelow (hslash : '/' ∉ source.suffix) (h : accepts name = true)
    (hnames : FilePath.names name.toList = before ++ [last]) :
    FilePath.names (source.fileBelow "" name).toList = before ++ [last ++ source.suffix] ∧
      ['.', '.'] ∉ FilePath.parts (source.fileBelow "" name).toList :=
  FilePath.names_of_components_eq (components_fileBelow hslash h hnames "")

-- What is read is where the path says, below the folder where the tree begins.
theorem eq_base_append_of_walk (hslash : '/' ∉ source.suffix) (h : accepts name = true)
    (hnames : FilePath.names name.toList = before ++ [last]) {tree : FileTree} {stop : List String}
    {entry : FileEntry}
    (hwalk : tree.walk tree.base (FileTree.namesOf (source.fileBelow "" name)) = .ok (stop, entry)) :
    stop = tree.base ++ (before ++ [last ++ source.suffix]).map String.ofList := by
  obtain ⟨hfile, hup⟩ := names_fileBelow hslash h hnames
  rw [FileTree.eq_append_of_walk hup hwalk, hfile]

theorem components_eq_iff (hslash : '/' ∉ source.suffix) {other : String} (h : accepts name = true)
    (hother : accepts other = true) :
    FilePath.components (source.fileBelow folder name).toList =
        FilePath.components (source.fileBelow folder other).toList ↔
      FilePath.names name.toList = FilePath.names other.toList := by
  obtain ⟨before, last, hnames⟩ := exists_names_eq h
  obtain ⟨otherBefore, otherLast, hotherNames⟩ := exists_names_eq hother
  have hinjective : Function.Injective FilePath.Component.name := fun _ _ => FilePath.Component.name.inj
  rw [components_fileBelow hslash h hnames, components_fileBelow hslash hother hotherNames,
    List.append_cancel_left_eq, hinjective.list_map.eq_iff, hnames, hotherNames]
  simp only [List.append_singleton_inj, List.append_cancel_right_eq]

-- The path of an accepted name goes on below the root, to the last name with the suffix.
theorem pathFor_below_root (source : Directory)
    (hextension : ∀ extension ∈ source.extension, '/' ∉ extension.toList) :
    (∀ name, (∃ path, source.pathFor name = .ok path) ↔ StaysBelow name) ∧
    (∀ name path, source.pathFor name = .ok path → ∃ before last,
      FilePath.names name.toList = before ++ [last] ∧
      (∀ part ∈ before ++ [last ++ source.suffix], part ≠ [] ∧ part ≠ ['.'] ∧ part ≠ ['.', '.']) ∧
      FilePath.components path.toList =
        FilePath.components source.root.toList ++ (before ++ [last ++ source.suffix]).map .name ∧
      ∀ stop entry, source.files.walk source.files.base
          (FileTree.namesOf (source.fileBelow "" name)) = .ok (stop, entry) →
        stop = source.files.base ++ (before ++ [last ++ source.suffix]).map String.ofList) ∧
    (∀ name error, source.pathFor name = .error error → error = .templateLoad name refusal ∧
      ∀ files describe, { source with files, describe }.fetch name = .error error) ∧
    (∀ name other path otherPath, source.pathFor name = .ok path → source.pathFor other = .ok otherPath →
      (FilePath.components path.toList = FilePath.components otherPath.toList ↔
        FilePath.names name.toList = FilePath.names other.toList)) := by
  have hslash := slash_notMem_suffix hextension
  refine ⟨fun name => ?_, ?_, ?_, ?_⟩
  · simp [pathFor_eq_ok_iff]
  · intro name path hpath
    obtain ⟨hstays, rfl⟩ := pathFor_eq_ok_iff.mp hpath
    have haccepts := accepts_iff.mpr hstays
    obtain ⟨before, last, hnames⟩ := exists_names_eq haccepts
    refine ⟨before, last, hnames, ?_, components_fileBelow hslash haccepts hnames source.root, ?_⟩
    · intro part hpart
      obtain ⟨hfile, hup⟩ := names_fileBelow hslash haccepts hnames
      rw [← hfile] at hpart
      have hname := FilePath.component?_of_mem_names hup hpart
      simpa [FilePath.component?_eq_name_iff, FilePath.isIdle, and_assoc] using hname
    · exact fun stop entry => eq_base_append_of_walk hslash haccepts hnames
  · intro name error herror
    obtain ⟨rfl, -⟩ := fetch_of_pathFor_error herror
    refine ⟨rfl, fun files describe => ?_⟩
    have hpath : { source with files, describe }.pathFor name = _ := herror
    exact (fetch_of_pathFor_error hpath).2
  · intro name other path otherPath hpath hother
    obtain ⟨hstays, rfl⟩ := pathFor_eq_ok_iff.mp hpath
    obtain ⟨hotherStays, rfl⟩ := pathFor_eq_ok_iff.mp hother
    exact components_eq_iff hslash (accepts_iff.mpr hstays) (accepts_iff.mpr hotherStays)

-- Idle parts go, those at the end and those between the names.
theorem pathFor_below_root_idle :
    (∃ path, pathFor ⟨"/r/", some "hbs", {}, fun _ => ""⟩ "a//./b/" = .ok path ∧
      FilePath.components path.toList = [.top, .name ['r'], .name ['a'], .name "b.hbs".toList]) ∧
    fetch ⟨"/r/", some "hbs", {}, fun _ => ""⟩ "a/../b" = .error (.templateLoad "a/../b" refusal) := by
  obtain ⟨haccepted, hpath, hrefused, -⟩ :=
    pathFor_below_root ⟨"/r/", some "hbs", {}, fun _ => ""⟩ (by decide)
  constructor
  · obtain ⟨path, hok⟩ := (haccepted "a//./b/").mpr (by unfold StaysBelow; decide)
    obtain ⟨before, last, hnames, -, hcomponents, -⟩ := hpath "a//./b/" path hok
    have hparts : [['a']] ++ [['b']] = before ++ [last] := hnames
    obtain ⟨rfl, rfl⟩ := List.append_singleton_inj.mp hparts
    exact ⟨path, hok, hcomponents⟩
  · exact (hrefused "a/../b" _ rfl).2 {} fun _ => ""

end Directory

end Stencil
