import Mathlib.Data.List.Lex
import Mathlib.Data.Char
import LifeSim.Lib.SortedMap

/-!
# The configuration tree

`section.cpp`, `key.cpp` and `config.cpp`: a section has keys, arrays that override them at some indices, and sections.
Each is kept in a map by its name in lower case, unless the configuration is case sensitive. The maps are sorted lists
here.
-/

namespace LifeSim.Config

open LifeSim.Lib

/-- `String`: each character is a byte. -/
abbrev Text := List Char

/-- `Key`, as far as it is loaded and saved. -/
structure Key where
  name : Text
  value : Text
  deriving DecidableEq, Repr

/-- The entries of an array, with the name by which it is kept. -/
structure KeyArray where
  iname : Text
  entries : List (Option Key)
  deriving DecidableEq, Repr

/-- `Section`. -/
inductive Section
  | mk (name : Text) (keys : List Key) (arrays : List KeyArray) (subSections : List Section)

/-- The name by which a map keeps an element. -/
def inameOf (caseSensitive : Bool) (name : Text) : Text := if caseSensitive then name else name.map Char.toLower

namespace Section

def name : Section → Text
  | mk name _ _ _ => name

def keys : Section → List Key
  | mk _ keys _ _ => keys

def arrays : Section → List KeyArray
  | mk _ _ arrays _ => arrays

def subSections : Section → List Section
  | mk _ _ _ subSections => subSections

/-- A section without contents. -/
def new (name : Text) : Section := mk name [] [] []

end Section

/-- A key that is added, for all indices or for one. -/
structure Addition where
  name : Text
  value : Text
  index : Option ℕ
  deriving DecidableEq, Repr

/-- The assignment to an element of a vector, which is resized if it is too short. -/
def setEntry (entries : List (Option Key)) (index : ℕ) (key : Key) : List (Option Key) :=
  (if entries.length < index + 1 then entries ++ List.replicate (index + 1 - entries.length) none else entries).set index
    (some key)

section Names

variable (cs : Bool)

/-- `Section::addKeyInternal`. A key for all indices removes the overrides. -/
def Section.addKey (a : Addition) : Section → Section
  | .mk name keys arrays subSections =>
    let iname := inameOf cs a.name
    match a.index with
    | none =>
      .mk name (alter (fun k => inameOf cs k.name) iname (fun _ => ⟨a.name, a.value⟩) keys)
        (arrays.filter fun array => array.iname ≠ iname) subSections
    | some index =>
      .mk name keys (alter KeyArray.iname iname
        (fun found => ⟨iname, setEntry ((found.map KeyArray.entries).getD []) index
          ⟨a.name, a.value⟩⟩) arrays) subSections

/-- The keys that are added one after the other. -/
def Section.addKeys (additions : List Addition) (s : Section) : Section :=
  additions.foldl (fun s a => Section.addKey cs a s) s

/-- `Config::getSection_unsafe`: the sections on the way are created if they are not there, and `f` is applied to the
last. -/
def Section.modify (f : Section → Section) : List Text → Section → Section
  | [], s => f s
  | element :: path, .mk name keys arrays subSections =>
    .mk name keys arrays (alter (fun s => inameOf cs s.name) (inameOf cs element)
      (fun found => Section.modify f path (found.getD (.new element))) subSections)

end Names

/-- `Config::splitPathElements`. -/
def splitPath (path : Text) : List Text := path.splitOn '/'

/-- `Section::getFullPath`, for the names from the root on. -/
def fullPath (names : List Text) : Text := ['/'].intercalate names

end LifeSim.Config
