namespace Stencil

-- The entity of a character that means something in HTML text or in a quoted attribute.
def entity? : Char → Option String
  | '&' => some "&amp;"
  | '<' => some "&lt;"
  | '>' => some "&gt;"
  | '"' => some "&quot;"
  | '\'' => some "&#39;"
  | _ => none

-- The characters that keep a text from being handed back as it is.
def special : List Char :=
  ['&', '<', '>', '"', '\'']

-- They are just those that are written as entities.
theorem entity?_eq_none_iff {c : Char} : entity? c = none ↔ c ∉ special := by
  unfold entity?
  split <;> simp_all [special]

def escapeChar (c : Char) : List Char :=
  match entity? c with
  | some entity => entity.toList
  | none => [c]

def escapeChars (text : List Char) : List Char :=
  text.flatMap escapeChar

def appendEscaped (output text : String) : String :=
  text.toList.foldl (fun written c =>
    match entity? c with
    | some entity => written ++ entity
    | none => written.push c) output

-- Text without special characters is handed back as it is.
def escape (text : String) : String :=
  if text.toList.any (· ∈ special) then appendEscaped "" text else text

theorem toList_appendEscaped (output text : String) :
    (appendEscaped output text).toList = output.toList ++ escapeChars text.toList := by
  simp only [appendEscaped, escapeChars]
  induction text.toList generalizing output with
  | nil => simp
  | cons c rest ih =>
    rw [List.foldl_cons, ih, List.flatMap_cons, ← List.append_assoc]
    congr 1
    simp only [escapeChar]
    cases entity? c with
    | some entity => simp
    | none => simp

theorem escapeChars_of_plain {text : List Char} (h : ∀ c ∈ text, entity? c = none) :
    escapeChars text = text := by
  induction text with
  | nil => rfl
  | cons c rest ih =>
    have hc : entity? c = none := h c (by simp)
    have hrest := ih fun d hd => h d (by simp [hd])
    simp only [escapeChars] at hrest
    simp [escapeChars, escapeChar, hc, hrest]

theorem toList_escape (text : String) : (escape text).toList = escapeChars text.toList := by
  simp only [escape]
  split
  · rw [toList_appendEscaped]; rfl
  · next h =>
    rw [escapeChars_of_plain]
    intro c hc
    rw [entity?_eq_none_iff]
    intro hspecial
    exact h (List.any_eq_true.mpr ⟨c, hc, decide_eq_true hspecial⟩)

theorem escapeChars_append (a b : List Char) : escapeChars (a ++ b) = escapeChars a ++ escapeChars b :=
  List.flatMap_append

-- Reads entities back, from left to right; every other character stands for itself.
def unescapeChars : List Char → List Char
  | '&' :: 'a' :: 'm' :: 'p' :: ';' :: rest => '&' :: unescapeChars rest
  | '&' :: 'l' :: 't' :: ';' :: rest => '<' :: unescapeChars rest
  | '&' :: 'g' :: 't' :: ';' :: rest => '>' :: unescapeChars rest
  | '&' :: 'q' :: 'u' :: 'o' :: 't' :: ';' :: rest => '"' :: unescapeChars rest
  | '&' :: '#' :: '3' :: '9' :: ';' :: rest => '\'' :: unescapeChars rest
  | c :: rest => c :: unescapeChars rest
  | [] => []

end Stencil
