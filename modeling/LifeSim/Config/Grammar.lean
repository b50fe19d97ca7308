import LifeSim.Config.Tree
import LifeSim.Lib.Repeat

/-!
# Reading a configuration

`config_file_grammar.hpp` and `ConfigFile::evalTree`. The rules of the grammar are functions from the text to what they
have read and the rest: alternatives are ordered, repetitions are greedy, and outside of a lexeme spaces and comments
are skipped before each token. The nodes keep the text that they have matched, and it is unescaped when the tree is
evaluated.
-/

namespace LifeSim.Config

open LifeSim.Lib

/-- `parserError`. -/
inductive Fault
  | parserError
  deriving DecidableEq, Repr

/-! ### Characters -/

/-- `space_p`. -/
def isSpace (c : Char) : Bool := c = ' ' || c = '\t' || c = '\n' || c = '\x0b' || c = '\x0c' || c = '\r'

/-- `eol_p`. -/
def isEol (c : Char) : Bool := c = '\n' || c = '\r'

/-- `alnum_p | (punct_p - ch_p('=') - ch_p(',') - ch_p('[') - ch_p(']'))`. -/
def isUnquoted (c : Char) : Bool :=
  33 ≤ c.toNat && c.toNat ≤ 126 && !(c = '=' || c = ',' || c = '[' || c = ']')

/-- A digit of base 16. -/
def isHex (c : Char) : Bool := c.isDigit || 'a' ≤ c && c ≤ 'f' || 'A' ≤ c && c ≤ 'F'

/-- The skipper, `space_p | comment_p("#")`, outside or inside of a comment. -/
def skipFrom : Bool → Text → Text
  | _, [] => []
  | false, c :: s => if isSpace c then skipFrom false s else if c = '#' then skipFrom true s else c :: s
  | true, c :: s => if isEol c then skipFrom false s else skipFrom true s

def skip (s : Text) : Text := skipFrom false s

/-! ### Strings -/

/-- What follows `\x` is a digit of base 16, or two with a value below 128. -/
def hexFollows : Text → Bool
  | [] => false
  | c :: s => isHex c && !((s.head?.map isHex).getD false && !(c.isDigit && c ≤ '7'))

/-- The text of an escape after its backslash: a character, or `x` and a digit. The further digits of an escape are read
as characters, so that the same text is matched. -/
def escaped : Matcher Char Text
  | [] => none
  | d :: s =>
    if d = 'x' || d = 'X' then
      if hexFollows s then some (['\\', d] ++ s.take 1, s.drop 1) else none
    else some (['\\', d], s)

/-- `lex_escape_ch_p - ch_p(close)`. -/
def escapeCh (close : Char) : Matcher Char Text
  | [] => none
  | c :: s => if c = close then none else if c = '\\' then escaped s else some ([c], s)

/-- The text up to an unescaped `close`. -/
def confix (close : Char) (s : Text) : Option (Text × Text) :=
  match ((escapeCh close).many s).2 with
  | [] => none
  | c :: rest => if c = close then some (((escapeCh close).many s).1.flatten, rest) else none

/-- `r_string` after what is skipped: quoted, or a word. The node of a quoted string has what is inside of the quotes. -/
def quoted : Matcher Char Text
  | [] => none
  | c :: s => if c = '"' then confix '"' s else none

def word (s : Text) : Option (Text × Text) :=
  if (s.takeWhile isUnquoted).isEmpty then none else some (s.takeWhile isUnquoted, s.dropWhile isUnquoted)

/-- `r_string`. -/
def string (s : Text) : Option (Text × Text) := (quoted (skip s)).or (word (skip s))

/-- `!r_string` -/
def optionalString (s : Text) : Option Text × Text :=
  match string s with
  | some (text, rest) => (some text, rest)
  | none => (none, s)

/-! ### Values -/

/-- The number of a list of digits. -/
def ofDigits (s : Text) : ℕ := s.foldl (fun n c => 10 * n + (c.toNat - '0'.toNat)) 0

/-- The digits of `long_p`, whose value is at most `bound`. -/
def longDigits (bound : ℕ) (s : Text) : Option Text :=
  if (s.takeWhile Char.isDigit).isEmpty || bound < ofDigits (s.takeWhile Char.isDigit) then none
  else some (s.dropWhile Char.isDigit)

/-- `long_p`: the rest after a number of 64 bits. -/
def long : Text → Option Text
  | [] => none
  | c :: s =>
    if c = '-' then longDigits 9223372036854775808 s
    else if c = '+' then longDigits 9223372036854775807 s
    else longDigits 9223372036854775807 (c :: s)

/-- A value of a key. -/
inductive ValueNode
  | single (text : Text)
  /-- The items of an array, with nothing for an empty one. -/
  | array (items : List (Option Text))
  | span
  deriving DecidableEq, Repr

/-- A separator with the item after it. -/
def separated (s : Text) : Option (Option Text × Text) :=
  match skip s with
  | [] => none
  | c :: rest => if c = ',' then some (optionalString rest) else none

/-- `r_value_array`. -/
def valueArray (s : Text) : Option (ValueNode × Text) :=
  let first := optionalString s
  let items := Matcher.many separated first.2
  if items.1.isEmpty then none else some (.array (first.1 :: items.1), items.2)

/-- `r_value_span`. -/
def valueSpan (s : Text) : Option (ValueNode × Text) := do
  let rest ← long (skip s)
  match skip rest with
  | [] => none
  | c :: rest => if c = '-' then (long (skip rest)).map fun rest => (.span, rest) else none

/-- `r_value_single`. -/
def valueSingle (s : Text) : Option (ValueNode × Text) := (string s).map fun r => (.single r.1, r.2)

/-- `!r_value`. -/
def value (s : Text) : Option ValueNode × Text :=
  match ((valueArray s).or (valueSpan s)).or (valueSingle s) with
  | some (node, rest) => (some node, rest)
  | none => (none, s)

/-! ### Keys and sections -/

/-- `*r_key_array`. -/
def brackets : Text → Text
  | '[' :: ']' :: s => brackets s
  | s => s

/-- The node of a key. -/
structure KeyNode where
  name : Option Text
  value : Option ValueNode
  deriving DecidableEq, Repr

/-- `r_key`. -/
def key (s : Text) : Option (KeyNode × Text) :=
  let name := optionalString s
  match (brackets (skip name.2)).dropWhile isSpace with
  | [] => none
  | c :: rest =>
    if c = '=' then some (⟨name.1, (value (rest.dropWhile isSpace)).1⟩, (value (rest.dropWhile isSpace)).2) else none

/-- The node of a section, with the text between its brackets. -/
structure SectionNode where
  name : Text
  keys : List KeyNode
  deriving DecidableEq, Repr

/-- `r_section`. -/
def sectionNode (s : Text) : Option (SectionNode × Text) :=
  match skip s with
  | [] => none
  | c :: s =>
    if c = '[' then (confix ']' s).map fun r => (⟨r.1, (Matcher.many key r.2).1⟩, (Matcher.many key r.2).2) else none

/-- `r_file`. -/
def file (s : Text) : Option (List SectionNode) :=
  let sections := Matcher.many sectionNode s
  if (skip sections.2).isEmpty then some sections.1 else none

/-! ### Evaluation -/

/-- The character for which an escape stands. -/
def unEscapeCh (c : Char) : Char :=
  if c = 'b' then '\x08' else if c = 'r' then '\r' else if c = 'f' then '\x0c'
  else if c = 't' then '\t' else if c = 'n' then '\n' else c

/-- The loop of `unEscapeText`, after a backslash or not. -/
def unEscapeFrom : Bool → Text → Text
  | _, [] => []
  | true, c :: s => unEscapeCh c :: unEscapeFrom false s
  | false, c :: s => if c = '\\' then unEscapeFrom true s else c :: unEscapeFrom false s

/-- `ConfigFile::unEscapeText`. -/
def unEscapeText (source : Text) : Text :=
  if 2 ≤ source.length ∧ source.head? = some '"' ∧ source.getLast? = some '"' then
    unEscapeFrom false (source.drop 1).dropLast
  else unEscapeFrom false source

/-- The entries of an array from `index` on. Empty ones are not added. -/
def arrayAdditions (name : Text) : ℕ → List (Option Text) → List Addition
  | _, [] => []
  | index, none :: items => arrayAdditions name (index + 1) items
  | index, some text :: items =>
    if unEscapeText text = [] then arrayAdditions name (index + 1) items
    else ⟨name, unEscapeText text, some index⟩ :: arrayAdditions name (index + 1) items

/-- The part of `ConfigFile::evalTree` for a key. -/
def evalKey (k : KeyNode) : Except Fault (List Addition) :=
  match k.name with
  | none => .error .parserError
  | some name => match k.value with
    | none => .ok [⟨unEscapeText name, [], none⟩]
    | some (.single text) => .ok [⟨unEscapeText name, unEscapeText text, none⟩]
    | some (.array items) => .ok (arrayAdditions (unEscapeText name) 0 items)
    | some .span => .error .parserError

/-- The part of `ConfigFile::evalTree` for a section. -/
def evalSection (cs : Bool) (root : Section) (node : SectionNode) : Except Fault Section := do
  let additions ← node.keys.mapM evalKey
  return root.modify cs (Section.addKeys cs additions.flatten) (splitPath node.name)

/-- `ConfigFile::parse`, for a configuration without contents. -/
def load (cs : Bool) (source : Text) : Except Fault Section :=
  match file source with
  | none => .error .parserError
  | some sections => sections.foldlM (evalSection cs) (.new [])

end LifeSim.Config
