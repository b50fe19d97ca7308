import LifeSim.Config.Grammar

/-!
# Writing a configuration

`ConfigFile::SaveTreeAs`. Whether a value is a number is decided by Boost, of which only the characters are used here.
-/

namespace LifeSim.Config

open LifeSim.Lib

/-- `ConfigFile::escapeText`. -/
def escapeText : Text → Text
  | [] => []
  | c :: s => if c = '\\' || c = '"' then '\\' :: c :: escapeText s else c :: escapeText s

/-- The characters of numbers. -/
def isNumeric (c : Char) : Bool := c.isDigit || c = '+' || c = '-' || c = '.' || c = 'e' || c = 'E'

/-- `getFloatValid() || getIntValid()`: `real_p` or `long_p` matches the value, and `lexical_cast` converts it. -/
structure NumberFormat where
  valid : Text → Bool
  nonempty : ∀ v, valid v = true → v ≠ []
  chars : ∀ v, valid v = true → ∀ c ∈ v, isNumeric c = true

/-- A text in quotes. -/
def inQuotes (s : Text) : Text := '"' :: escapeText s ++ ['"']

/-- A name is written in quotes if it has a space or a quote. -/
def nameText (name : Text) : Text := if ' ' ∈ name ∨ '"' ∈ name then inQuotes name else name

section Numbers

variable (num : NumberFormat)

/-- A value is written in quotes if it is not a number. -/
def valueText (v : Text) : Text := if num.valid v then v else inQuotes v

/-- The line of a key. -/
def keyText (k : Key) : Text := nameText k.name ++ " = ".toList ++ valueText num k.value ++ ['\n']

/-- The entries of an array, each with a comma. -/
def entryText (entry : Option Key) : Text := (entry.map fun k => valueText num k.value).getD [] ++ [',']

/-- The name of the first entry that is not a default. -/
def arrayName (entries : List (Option Key)) : Text := ((entries.findSome? id).map Key.name).getD []

/-- The line of an array. -/
def arrayText (array : KeyArray) : Text :=
  (if (array.entries.findSome? id).isSome then nameText (arrayName array.entries) else []) ++ "[] = ".toList ++
    array.entries.flatMap (entryText num) ++ ['\n']

/-- The first line of a section. -/
def headerText (names : List Text) : Text := if names.isEmpty then [] else '[' :: fullPath names ++ "]\n".toList

/-- The lines of a section, with the empty one at its end. -/
def bodyText (keys : List Key) (arrays : List KeyArray) : Text :=
  keys.flatMap (keyText num) ++ arrays.flatMap (arrayText num) ++ ['\n']

mutual

/-- `ConfigFile::SaveTreeAs`, for the names from the root to the section. -/
def saveTree (names : List Text) : Section → Text
  | .mk _ keys arrays subSections =>
    headerText names ++ bodyText num keys arrays ++ saveSections names subSections

/-- The loop over the sections. -/
def saveSections (names : List Text) : List Section → Text
  | [] => []
  | s :: rest => saveTree (names ++ [s.name]) s ++ saveSections names rest

end

/-- What is saved of a configuration. -/
def save (root : Section) : Text := saveTree num [] root

end Numbers

end LifeSim.Config
