import Stencil.Draft
import Stencil.Error
import Stencil.Options
import Stencil.Token
import Std.Data.TreeSet

namespace Stencil

-- The last closing tag of each kind: no opener behind it can be closed.
structure Closers where
  lastIfTrue : Option Nat := none
  lastIfFalse : Option Nat := none
  lastEach : Option Nat := none

namespace Closers

def get (closers : Closers) : BlockKind → Option Nat
  | .ifTrue => closers.lastIfTrue
  | .ifFalse => closers.lastIfFalse
  | .each => closers.lastEach

def set (closers : Closers) (kind : BlockKind) (start : Nat) : Closers :=
  match kind with
  | .ifTrue => { closers with lastIfTrue := some start }
  | .ifFalse => { closers with lastIfFalse := some start }
  | .each => { closers with lastEach := some start }

-- Goes through tokens of which the first starts at `start`.
def scan (closers : Closers) (start : Nat) : List Token → Closers
  | [] => closers
  | .tag (.closer kind) spelling :: rest =>
    scan (closers.set kind start) (start + spelling.length) rest
  | token :: rest => scan closers (start + token.width) rest

-- Does a closing tag of this kind start at or behind `offset`?
def reaches (closers : Closers) (kind : BlockKind) (offset : Nat) : Bool :=
  (closers.get kind).any (offset ≤ ·)

end Closers

structure Reader where
  source : Array Char
  options : Options
  closers : Closers

namespace Reader

def locate (reader : Reader) (offset : Nat) (fault : ParseFault) : ParseError :=
  let before := (reader.source.extract 0 offset).toList
  { line := before.count '\n' + 1
    column := (before.reverse.takeWhile (· ≠ '\n')).length + 1
    fault }

-- The first characters at an offset, as an error quotes them.
def quote (reader : Reader) (offset : Nat) : String :=
  String.ofList (reader.source.extract offset (offset + 24)).toList

end Reader

-- The finished first branch of an `if`, with the latest piece first.
structure ThenBranch where
  pieces : List Piece
  elseTag : Span

-- An opener that waits for its closing tag.
structure OpenBlock where
  kind : BlockKind
  path : Path
  tag : Span
  -- The tokens behind the opener, where reading resumes if the block is abandoned.
  after : List Token
  thenBranch : Option ThenBranch := none
  body : Draft

namespace OpenBlock

def splits (block : OpenBlock) : Bool :=
  block.kind = .ifTrue && block.thenBranch.isNone

def split (block : OpenBlock) (elseTag : Span) : OpenBlock :=
  { block with
    thenBranch := some ⟨(block.body.flush elseTag.start).pieces, elseTag⟩
    body := { textStart := elseTag.stop } }

-- The finished block. Its body has been flushed up to the closing tag.
def toNode (source : Array Char) (block : OpenBlock) : Node :=
  let body := block.body.toNodes source
  match block.thenBranch with
  | some branch =>
    .ifElse block.path ((branch.pieces.map (Piece.toNode source)).reverse) body
  | none => .block block.kind block.path body

def dissolve (block : OpenBlock) (around : Draft) : Draft :=
  let draft := around.flush block.tag.stop
  let draft := match block.thenBranch with
    | some branch => (draft.append branch.pieces).pushText branch.elseTag
    | none => draft
  draft.append block.body.pieces

end OpenBlock

-- An opener is tried as a block. Where the text ends before its closing tag, the block is abandoned: its opener
-- becomes text, and reading resumes right behind it, one level further out. The openers found out this way are
-- remembered, so none is tried twice.
structure State where
  -- The number of characters in front of `rest`.
  pos : Nat
  rest : List Token
  root : Draft
  -- The innermost block comes first.
  opened : List OpenBlock
  -- Where the openers start that are known not to be closed.
  unclosed : Std.TreeSet Nat

inductive Progress where
  | next (state : State)
  | done (nodes : List Node)
  | failed (error : ParseError)

namespace State

def start (tokens : List Token) : State :=
  { pos := 0, rest := tokens, root := { textStart := 0 }, opened := [], unclosed := ∅ }

def updateBody (s : State) (change : Draft → Draft) : State :=
  match s.opened with
  | [] => { s with root := change s.root }
  | block :: outer => { s with opened := { block with body := change block.body } :: outer }

-- Goes past the first token, which stays literal text unless something else is made of it.
def skip (s : State) (token : Token) (rest : List Token) : State :=
  { s with pos := s.pos + token.width, rest }

-- Gives up the innermost block, and reads again what stands behind its opener.
def abandon (s : State) (block : OpenBlock) (outer : List OpenBlock) : State :=
  { s with
    pos := block.tag.stop
    rest := block.after
    opened := outer
    unclosed := s.unclosed.insert block.tag.start }

-- Takes up an opener as a block, from the state behind the tag.
def openBlock (reader : Reader) (s : State) (kind : BlockKind) (path : Path) (tag : Span) : Progress :=
  let opened : OpenBlock := { kind, path, tag, after := s.rest, body := { textStart := tag.stop } }
  if s.unclosed.contains tag.start then .next s
  else if reader.options.strict then
    if reader.options.maxDepth ≤ s.opened.length then
      .failed (reader.locate tag.start (.nestingTooDeep reader.options.maxDepth))
    else .next { s with opened := opened :: s.opened }
  else if reader.closers.reaches kind tag.stop then .next { s with opened := opened :: s.opened }
  else .next { s with unclosed := s.unclosed.insert tag.start }

-- An `else` tag splits the innermost block if that is an `if` not split before. Anywhere else `else` is
-- a path like others.
def elseTag (s : State) (tag : Span) : State :=
  match s.opened with
  | block :: outer =>
    if block.splits then { s with opened := block.split tag :: outer }
    else s.updateBody (·.pushNode (.placeholder ⟨"else"⟩ true) tag)
  | [] => s.updateBody (·.pushNode (.placeholder ⟨"else"⟩ true) tag)

-- Closes the innermost block. Inside too many others its tags stay text.
def closeBlock (reader : Reader) (s : State) (block : OpenBlock) (outer : List OpenBlock)
    (tag : Span) : State :=
  let block := { block with body := block.body.flush tag.start }
  let s := { s with opened := outer }
  if reader.options.maxDepth ≤ outer.length then
    s.updateBody fun around => { block.dissolve around with textStart := tag.start }
  else s.updateBody (·.pushNode (block.toNode reader.source) ⟨block.tag.start, tag.stop⟩)

def strayCloser (reader : Reader) (s : State) (tag : Span) (spelling : List Char) : Progress :=
  if reader.options.strict then
    .failed (reader.locate tag.start (.unexpectedTag (String.ofList spelling)))
  else .next s

def onTag (reader : Reader) (s : State) (tag : Tag) (spelling : List Char) (span : Span) : Progress :=
  match tag with
  | .placeholder path escaped => .next (s.updateBody (·.pushNode (.placeholder path escaped) span))
  | .opener kind path => s.openBlock reader kind path span
  | .otherwise => .next (s.elseTag span)
  | .closer kind =>
    match s.opened with
    | block :: outer =>
      if block.kind = kind then .next (s.closeBlock reader block outer span)
      else s.strayCloser reader span spelling
    | [] => s.strayCloser reader span spelling

def onEnd (reader : Reader) (s : State) : Progress :=
  match s.opened with
  | [] => .done ((s.root.flush s.pos).toNodes reader.source)
  | block :: outer =>
    if reader.options.strict then
      .failed (reader.locate s.pos (.unclosedBlock block.kind.keyword))
    else .next (s.abandon block outer)

def step (reader : Reader) (s : State) : Progress :=
  match s.rest with
  | [] => s.onEnd reader
  | token :: rest =>
    let behind := s.skip token rest
    match token with
    | .text _ => .next behind
    | .brace =>
      if reader.options.strict then .failed (reader.locate s.pos (.invalidTag (reader.quote s.pos)))
      else .next behind
    | .tag tag spelling => behind.onTag reader tag spelling ⟨s.pos, behind.pos⟩

-- Bounds the steps for this many tokens: each of them can at worst fork, into a block and its text.
def forks : Nat → Nat
  | 0 => 1
  | n + 1 => 3 * forks n

theorem forks_pos (n : Nat) : 0 < forks n := by
  induction n with
  | zero => decide
  | succ n ih => simp only [forks]; omega

-- Bounds the steps for what stands behind waiting openers, should it all be read again.
def rereading : List OpenBlock → Nat
  | [] => 0
  | block :: outer => forks block.after.length + rereading outer

def work (s : State) : Nat :=
  forks s.rest.length + rereading s.opened

@[simp] theorem work_updateBody (s : State) (change : Draft → Draft) :
    (s.updateBody change).work = s.work := by
  unfold updateBody
  split
  · rfl
  · next h => simp [work, rereading, h]

private theorem work_elseTag (s : State) (tag : Span) : (s.elseTag tag).work = s.work := by
  unfold elseTag
  split
  · next h =>
    split
    · simp [work, rereading, h, OpenBlock.split]
    · simp
  · simp

private theorem work_closeBlock_le (reader : Reader) (s : State) {block : OpenBlock}
    {outer : List OpenBlock} (tag : Span) (h : s.opened = block :: outer) :
    (s.closeBlock reader block outer tag).work ≤ s.work := by
  unfold closeBlock
  simp only
  split <;> rw [work_updateBody] <;> simp [work, rereading, h]

-- Going past a token leaves twice what a new block needs.
private theorem work_onTag_lt {reader : Reader} {s s' : State} {tag : Tag} {spelling : List Char}
    {span : Span} (h : s.onTag reader tag spelling span = .next s') :
    s'.work < s.work + 2 * forks s.rest.length := by
  have hpos := forks_pos s.rest.length
  have stray : s.strayCloser reader span spelling = .next s' → s'.work = s.work := by
    intro h
    unfold strayCloser at h
    split at h
    · cases h
    · cases h; rfl
  unfold onTag at h
  split at h
  · cases h; rw [work_updateBody]; omega
  · unfold openBlock at h
    simp only at h
    split at h
    · cases h; omega
    · split at h
      · split at h
        · cases h
        · cases h; simp only [work, rereading]; omega
      · split at h
        · cases h; simp only [work, rereading]; omega
        · cases h; simp only [work]; omega
  · cases h; rw [work_elseTag]; omega
  · split at h
    · next hopened =>
      split at h
      · cases h
        have := work_closeBlock_le reader s span hopened
        omega
      · have := stray h; omega
    · have := stray h; omega

private theorem work_onEnd_lt {reader : Reader} {s s' : State} (h : s.onEnd reader = .next s') :
    s'.work < s.work := by
  unfold onEnd at h
  split at h
  · cases h
  · next hopened =>
    split at h
    · cases h
    · cases h
      have := forks_pos s.rest.length
      simp only [work, abandon, hopened, rereading]
      omega

-- Every step lowers the work, so reading comes to an end.
theorem work_step_lt {reader : Reader} {s s' : State} (h : s.step reader = .next s') :
    s'.work < s.work := by
  unfold step at h
  split at h
  · exact work_onEnd_lt h
  · next token rest hrest =>
    have hskip : (s.skip token rest).work + 2 * forks rest.length = s.work := by
      simp only [work, skip, hrest, List.length_cons, forks]
      omega
    have hpos := forks_pos rest.length
    simp only at h
    split at h
    · cases h; omega
    · split at h
      · cases h
      · cases h; omega
    · have := work_onTag_lt h
      simp only [skip] at this hskip
      omega

def run (reader : Reader) (s : State) : Except ParseError (List Node) :=
  match _next : s.step reader with
  | .next s' => run reader s'
  | .done nodes => .ok nodes
  | .failed error => .error error
termination_by s.work
decreasing_by exact work_step_lt _next

end State

namespace Node

-- Reads a template. Without strictness this never fails.
def parse (options : Options) (text : List Char) : Except ParseError (List Node) :=
  let tokens := Token.ofText options.allowPadding text
  let reader : Reader := { source := text.toArray, options, closers := ({} : Closers).scan 0 tokens }
  (State.start tokens).run reader

end Node

end Stencil
