import Stencil.Proofs.Builder.ReadFrom

namespace Stencil

namespace Closers

variable {closers : Closers} {kind : BlockKind} {offset start : Nat}

@[simp] theorem get_set_self : (closers.set kind start).get kind = some start := by
  cases kind <;> rfl

theorem get_set_of_ne {other : BlockKind} (h : other ≠ kind) :
    (closers.set other start).get kind = closers.get kind := by
  cases other <;> cases kind <;> first | rfl | exact absurd rfl h

-- A later tag takes the place of an earlier one, but it stands further on.
theorem reaches_set (h : closers.reaches kind offset = true) (hle : offset ≤ start)
    (other : BlockKind) : (closers.set other start).reaches kind offset = true := by
  by_cases hkind : other = kind
  · subst hkind
    simpa [reaches] using hle
  · rw [reaches, get_set_of_ne hkind]
    exact h

theorem reaches_scan {tokens : List Token} (h : closers.reaches kind offset = true)
    (hle : offset ≤ start) : (closers.scan start tokens).reaches kind offset = true := by
  fun_induction scan closers start tokens with
  | case1 => exact h
  | case2 closers start found spelling rest ih =>
      exact ih (reaches_set h hle found) (Nat.le_add_right_of_le hle)
  | case3 closers start token rest _ ih => exact ih h (Nat.le_add_right_of_le hle)

-- Every closing tag that is gone through is reached from where the tokens begin.
theorem reaches_scan_of_mem {tokens : List Token} {spelling : List Char}
    (h : .tag (.closer kind) spelling ∈ tokens) (hle : offset ≤ start) :
    (closers.scan start tokens).reaches kind offset = true := by
  fun_induction scan closers start tokens with
  | case1 => cases h
  | case2 closers start found other rest ih =>
      rcases List.mem_cons.mp h with heq | hrest
      · cases heq
        refine reaches_scan ?_ (Nat.le_add_right_of_le hle)
        simpa [reaches] using hle
      · exact ih hrest (Nat.le_add_right_of_le hle)
  | case3 closers start token rest hnot ih =>
      rcases List.mem_cons.mp h with rfl | hrest
      · exact (hnot kind spelling rfl).elim
      · exact ih hrest (Nat.le_add_right_of_le hle)

end Closers

namespace Reading

-- The closing tag of this reading is one of the tokens, and behind it they go on as if they began there.
def ClosesIn (padded : Bool) (text : List Char) (kind : BlockKind) (r : Reading) : Prop :=
  ∀ closer used, r.closer = some (closer, used) → ∃ before, Token.ofText padded text =
    before ++ .tag (.closer kind) closer :: Token.ofText padded (text.drop used)

theorem ClosesIn.shift {padded : Bool} {text : List Char} {kind : BlockKind} {r : Reading}
    {width : Nat} (h : r.ClosesIn padded (text.drop width) kind)
    (htokens : Token.ofText padded (text.drop width) <:+ Token.ofText padded text) :
    (r.shift width).ClosesIn padded text kind := by
  intro closer used hcloser
  obtain ⟨⟨found, further⟩, hfound, heq⟩ := Option.map_eq_some_iff.mp hcloser
  obtain ⟨rfl, rfl⟩ := Prod.mk.inj heq
  obtain ⟨first, hfirst⟩ := htokens
  obtain ⟨before, hbefore⟩ := h found further hfound
  refine ⟨first ++ before, ?_⟩
  rw [← hfirst, hbefore, List.drop_drop, List.append_assoc]

end Reading

namespace Outline

theorem closesIn_read (padded : Bool) (within : Option BlockKind) (splits : Bool)
    (text : List Char) :
    ∀ kind, within = some kind → (read padded within splits text).ClosesIn padded text kind := by
  fun_induction read padded within splits text with
  | case1 => intro kind _ closer used h; cases h
  | case2 within splits c rest hscan ih =>
      exact fun kind hwithin => (ih kind hwithin).shift ⟨[_], (Token.ofText_literal hscan).symm⟩
  | case3 within splits c rest width spelling behind path escaped _ hscan ih =>
      exact fun kind hwithin => (ih kind hwithin).shift ⟨[_], (Token.ofText_tag hscan).symm⟩
  | case4 within splits c rest width spelling behind kind path _ inner closer used hcloser hscan
      ihInner ihRest =>
      intro outer hwithin
      obtain ⟨before, hbefore⟩ := ihInner kind rfl closer used hcloser
      have htokens : Token.ofText padded ((c :: rest).drop (width + used)) <:+
          Token.ofText padded (c :: rest) := by
        rw [Token.ofText_tag hscan, hbefore, List.drop_drop]
        exact ⟨_ :: before ++ [_], congrArg (_ :: ·) (List.append_assoc _ _ _)⟩
      refine Reading.ClosesIn.shift ?_ htokens
      rw [← List.drop_drop]
      exact ihRest outer hwithin
  | case5 within splits c rest width spelling behind kind path _ inner _ hscan _ ihRest =>
      exact fun outer hwithin => (ihRest outer hwithin).shift ⟨[_], (Token.ofText_tag hscan).symm⟩
  | case6 within c rest width spelling behind _ hscan ih =>
      exact fun kind hwithin => (ih kind hwithin).shift ⟨[_], (Token.ofText_tag hscan).symm⟩
  | case7 within splits c rest width spelling behind _ _ hscan ih =>
      exact fun kind hwithin => (ih kind hwithin).shift ⟨[_], (Token.ofText_tag hscan).symm⟩
  | case8 splits c rest width spelling kind _ hscan =>
      intro other hother closer used hcloser
      cases hother
      cases hcloser
      exact ⟨[], Token.ofText_tag hscan⟩
  | case9 within splits c rest width spelling behind kind _ _ hscan ih =>
      exact fun other hwithin => (ih other hwithin).shift ⟨[_], (Token.ofText_tag hscan).symm⟩

end Outline

namespace Reader

variable {reader : Reader} {kind : BlockKind} {offset width : Nat}

-- Going through the tokens of the whole text for closing tags comes by this place.
def Passes (reader : Reader) (offset : Nat) : Prop :=
  ∃ closers : Closers, closers.scan offset (reader.tokens offset) = reader.closers

theorem Passes.skip_literal {c : Char} {behind : List Char} (h : reader.Passes offset)
    (hrest : reader.rest offset = c :: behind) (hscan : reader.scanAt? offset = none) :
    reader.Passes (offset + 1) := by
  obtain ⟨closers, hclosers⟩ := h
  rw [tokens_literal hrest hscan] at hclosers
  refine ⟨closers, ?_⟩
  rw [← hclosers]
  split <;> rfl

theorem Passes.skip_tag {tag : Tag} (h : reader.Passes offset)
    (hscan : reader.scanAt? offset = some (tag, width)) : reader.Passes (offset + width) := by
  have hwidth : (Piece.slice reader.source offset (offset + width)).length = width := by
    have hsize := le_size_of_scanAt? hscan
    simp only [Piece.slice, Array.length_toList, Array.size_extract]
    omega
  obtain ⟨closers, hclosers⟩ := h
  rw [tokens_tag hscan] at hclosers
  cases tag with
  | closer kind => exact ⟨closers.set kind offset, by simpa [Closers.scan, hwidth] using hclosers⟩
  | placeholder path escaped =>
      exact ⟨closers, by simpa [Closers.scan, Token.width, Token.spelling, hwidth] using hclosers⟩
  | opener kind path =>
      exact ⟨closers, by simpa [Closers.scan, Token.width, Token.spelling, hwidth] using hclosers⟩
  | otherwise =>
      exact ⟨closers, by simpa [Closers.scan, Token.width, Token.spelling, hwidth] using hclosers⟩

-- No opener is turned down that can be closed.
theorem reaches_of_closed {closer : List Char} {stop : Nat} {splits : Bool}
    (hpasses : reader.Passes offset)
    (h : (reader.readFrom (some kind) splits offset).closer = some (closer, stop)) :
    reader.closers.reaches kind offset = true := by
  obtain ⟨⟨found, used⟩, hfound, -⟩ := Option.map_eq_some_iff.mp h
  obtain ⟨before, hbefore⟩ := Outline.closesIn_read _ _ _ _ kind rfl found used hfound
  obtain ⟨closers, hclosers⟩ := hpasses
  have hmem : .tag (.closer kind) found ∈ reader.tokens offset := by
    rw [tokens, hbefore]
    exact List.mem_append_right _ List.mem_cons_self
  rw [← hclosers]
  exact Closers.reaches_scan_of_mem hmem (Nat.le_refl _)

end Reader

end Stencil
