import LightShow.Token.Lexer

/-
  Aliases: named runs of tokens that lines may use.

  Alias lines are found before anything else is read, so an
  alias may be used above its own line. On a line that
  starts with `glowImmediate`, `glowRamp` or `pause` each
  word is replaced by the tokens of its alias, which may use
  further aliases down to a fixed depth. A word right after
  a number is a time unit and stays. A line on which some
  word cannot be replaced is emptied.

  Key definitions include:
    * `LightShow.AliasTable`
    * `LightShow.AliasTable.ofTokens`
    * `LightShow.AliasTable.expand`
    * `LightShow.AliasTable.spliceLine`
    * `LightShow.AliasTable.splice`
-/

namespace LightShow

------------------------------------------------------------
-- Faults
------------------------------------------------------------

/- What can be wrong with an alias or its use. -/
inductive AliasFault where
  | duplicate (name : String) (firstLine : Nat)
  | body (name : String) (fault : Code) (message : String)
  | unknown (name : String)
  | tooDeep (name : String)
deriving DecidableEq, Repr

namespace AliasFault

/- How deep the bodies of aliases may nest. -/
def maxDepth : Nat := 8

def code : AliasFault → Code
  | .duplicate _ _ => .duplicateAlias
  | .body _ fault _ => fault
  | .unknown _ => .unknownAlias
  | .tooDeep _ => .aliasTooDeep

def message : AliasFault → String
  | .duplicate name _ => s!"define '{name}' is already defined"
  | .body name _ message => s!"in define '{name}': {message}"
  | .unknown name => s!"unknown define '{name}'"
  | .tooDeep name =>
      s!"define '{name}' nests deeper than {maxDepth} levels"

def suggestion : AliasFault → Option String
  | .duplicate _ line => some s!"first defined on line {line}"
  | .unknown name => some s!"add 'define: {name} = \"...\"'"
  | _ => none

/- The diagnostic of a fault at a span. -/
def diagnostic
    (source : SourceText)
    (fault : AliasFault)
    (span : Span) : Diagnostic :=
  .error source fault.code fault.message span fault.suggestion

end AliasFault

------------------------------------------------------------
-- Finding Alias Lines
------------------------------------------------------------

/- Put a token in front of the first line. -/
def Token.consLine (t : Token) :
    List (List Token) → List (List Token)
  | [] => [[t]]
  | l :: ls => (t :: l) :: ls

/- The lines of a token list, newline tokens dropped. -/
def Token.splitNewlines (ts : List Token) :
    List (List Token) :=
  ts.foldr
    (fun t ls =>
      if t.isNewline then [] :: ls else t.consLine ls)
    [[]]

/- An alias line as it was found. -/
structure AliasLine where
  name : String
  nameSpan : Span
  text : String
  textSpan : Span
deriving DecidableEq, Repr

/- Recognise an alias line by its first five tokens. -/
def AliasLine.ofTokens? : List Token → Option AliasLine
  | ⟨.keyword .define, _⟩ :: ⟨.mark .colon, _⟩
      :: ⟨.word name, nameSpan⟩ :: ⟨.mark .equals, _⟩
      :: ⟨.quoted text, textSpan⟩ :: _ =>
      some ⟨name, nameSpan, text, textSpan⟩
  | _ => none

/- All alias lines of a token list. -/
def AliasLine.all (ts : List Token) : List AliasLine :=
  (Token.splitNewlines ts).filterMap AliasLine.ofTokens?

------------------------------------------------------------
-- Alias Tables
------------------------------------------------------------

/- An alias with the tokens it stands for. -/
structure AliasEntry where
  name : String
  nameSpan : Span
  body : List Token.Kind
deriving DecidableEq, Repr

/- Aliases with different names, in order of definition. -/
structure AliasTable where
  entries : List AliasEntry
deriving DecidableEq, Repr

namespace AliasTable

/- The table without aliases. -/
def empty : AliasTable := ⟨[]⟩

/- The entry of a name. -/
def entry?
    (table : AliasTable)
    (name : String) : Option AliasEntry :=
  table.entries.find? fun e => e.name == name

/- The tokens that a name stands for. -/
def body?
    (table : AliasTable)
    (name : String) : Option (List Token.Kind) :=
  (table.entry? name).map AliasEntry.body

/- Read the text of an alias as a source of its own. -/
def lexBody (source : SourceText) (text : String) : Lexed :=
  Token.ofSource ⟨source.name, text⟩

/- The kinds of the tokens of an alias text. -/
def bodyKinds (tokens : List Token) : List Token.Kind :=
  (tokens.filter fun t => !t.isNewline && !t.isEnd).map
    Token.kind

/- Add one alias line, unless its name is already taken. -/
def add
    (source : SourceText)
    (acc : AliasTable × Log)
    (line : AliasLine) : AliasTable × Log :=
  let (table, log) := acc
  match table.entry? line.name with
  | some first =>
      let fault :=
        AliasFault.duplicate line.name
          first.nameSpan.startLine
      (table,
        log.pushError
          (fault.diagnostic source line.nameSpan))
  | none =>
      let lexed := lexBody source line.text
      let faults := lexed.log.errors.map fun d =>
        (AliasFault.body line.name d.code d.message).diagnostic
          source line.textSpan
      (⟨table.entries ++
          [⟨line.name, line.nameSpan, bodyKinds lexed.tokens⟩]⟩,
        faults.foldl Log.pushError log)

/- The table of all alias lines, and what is wrong in them. -/
def ofTokens
    (source : SourceText)
    (ts : List Token) : AliasTable × Log :=
  (AliasLine.all ts).foldl (add source) (empty, .empty)

------------------------------------------------------------
-- Replacing Words
------------------------------------------------------------

/- Whether the token last put out is a number. -/
def endsInNumber : List Token → Bool
  | ⟨.number _, _⟩ :: _ => true
  | _ => false

/-
  Put out one token, its aliases replaced down to `levels`
  levels. `out` holds the tokens put out so far, last one
  first, and every new token has the place `span` of the use.
-/
def expand
    (table : AliasTable)
    (span : Span) :
    Nat → List Token → Token.Kind →
      Except AliasFault (List Token)
  | levels, out, .word name =>
      if endsInNumber out then .ok (⟨.word name, span⟩ :: out)
      else
        match table.body? name with
        | none => .error (.unknown name)
        | some body =>
            match levels with
            | 0 => .error (.tooDeep name)
            | levels + 1 =>
                body.foldlM (expand table span levels) out
  | _, out, kind => .ok (⟨kind, span⟩ :: out)

/- Put out one token of a script; a fault has its place. -/
def put
    (table : AliasTable)
    (out : List Token)
    (t : Token) : Except (AliasFault × Span) (List Token) :=
  match expand table t.span AliasFault.maxDepth out t.kind with
  | .ok out => .ok out
  | .error fault => .error (fault, t.span)

/- Whether the line starts with a word that takes aliases. -/
def takesAliases : List Token → Bool
  | ⟨.keyword k, _⟩ :: _ => k.takesAliases
  | _ => false

------------------------------------------------------------
-- One Pass Over All Tokens
------------------------------------------------------------

/- Where a pass over the tokens of a script stands. -/
structure Pass where
  /- The tokens put out so far, last one first. -/
  out : List Token := []
  /- What was put out when the line was entered. -/
  before : List Token := []
  /- Whether the line takes aliases. -/
  splicing : Bool := false
  /- Whether the rest of the line is dropped. -/
  skipping : Bool := false
  /- The faults so far, last one first. -/
  faults : List (AliasFault × Span) := []

namespace Pass

/- Whether the next token put out is the first of its line. -/
def atLineStart (p : Pass) : Bool :=
  match p.out with
  | [] => true
  | t :: _ => t.isNewline

/- Enter a line, if the token `t` is the first of one. -/
def enter (p : Pass) (t : Token) : Pass :=
  if p.atLineStart && !p.skipping then
    { p with before := p.out, splicing := takesAliases [t] }
  else p

/-
  Take in a token. A fault takes back what was put out since
  the line was entered and drops what follows on the line.
-/
def step
    (table : AliasTable)
    (p : Pass)
    (t : Token) : Pass :=
  let p := p.enter t
  if t.isNewline || t.isEnd then
    { p with out := t :: p.out, skipping := false }
  else if p.skipping then p
  else if p.splicing then
    match put table p.out t with
    | .ok out => { p with out := out }
    | .error fault =>
        { p with
          out := p.before
          skipping := true
          faults := fault :: p.faults }
  else { p with out := t :: p.out }

end Pass

/- Replace the aliases of a token list. -/
def splice
    (table : AliasTable)
    (ts : List Token) :
    List Token × List (AliasFault × Span) :=
  let p := ts.foldl (Pass.step table) {}
  (p.out.reverse, p.faults.reverse)

------------------------------------------------------------
-- One Line
------------------------------------------------------------

/- Replace the aliases of one line. A fault empties it. -/
def spliceLine
    (table : AliasTable)
    (line : List Token) :
    List Token × List (AliasFault × Span) :=
  if takesAliases line then
    match line.foldlM (put table) [] with
    | .ok out => (out.reverse, [])
    | .error fault => ([], [fault])
  else (line, [])

end AliasTable

end LightShow
