import Passdoq.Crypto
import Passdoq.Runcom.Grammar

/-!
# Loading a configuration

`Config` of `runcom.cpp`: what it has read and what it holds, and the loading of files into it. What reading a path comes to
is the parameter `read`.

* `parentPath`, `join` : `parent_path` and `operator/` of `std::filesystem::path`;
* `preprocess` : the expansion of `#include` lines, with fuel, since it may nest without end;
* `load`, `loadDefaults` : under their names in the source, with the exception that leaves them.
-/

namespace Passdoq.Runcom

/-- What comes of an `std::ifstream` on a path: it does not open; it opens, and the iterator over it throws, as on a
directory; or it gives the contents. -/
inductive Reading
  | closed
  | throws (e : Exn)
  | contents (content : Bytes)
  deriving DecidableEq

namespace Reading

def content? : Reading → Option Bytes
  | .contents content => some content
  | _ => none

def opens : Reading → Bool
  | .closed => false
  | _ => true

def fails : Reading → Bool
  | .throws _ => true
  | _ => false

end Reading

/-! ## Paths -/

def isSlash (c : UInt8) : Bool := c = 47

/-- `path::parent_path`: up to the last separators, which stay only at the root. -/
def parentPath (path : Bytes) : Bytes :=
  let dir := path.rdropWhile fun c => !isSlash c
  let parent := dir.rdropWhile isSlash
  if parent ≠ [] then parent else if dir = [] then [] else if dir = path then path else [47]

/-- `base / name`. -/
def join (base name : Bytes) : Bytes :=
  if name.head? = some 47 ∨ base = [] then name
  else if base.getLast? = some 47 then base ++ name
  else base ++ 47 :: name

/-! ## Includes -/

/-- The text between the first and the last quote of a line. -/
def includeFile (line : Bytes) : Option Bytes :=
  match line.dropWhile fun c => c ≠ 34 with
  | [] => none
  | _ :: rest => if 34 ∈ rest then some (rest.rdropWhile fun c => c ≠ 34).dropLast else none

/-- What the expansion of a text has come to: the text, the paths loaded, the exception that has ended it, and for every file
that was read on the way the paths of the nested includes that led to it, nearest first. The source keeps these on its call
stack. -/
structure Expansion where
  text : Bytes
  loaded : List Bytes
  thrown : Option Exn
  chains : List (List Bytes)

/-- One line: an `#include` line is replaced by the expansion of the file, when its path is new and the file opens. An
exception ends the loop over the lines. -/
def preprocessLine (read : Bytes → Reading) (expand : List Bytes → Bytes → Bytes → List Bytes → Option Expansion)
    (chain : List Bytes) (base : Bytes) (x : Expansion) (line : Bytes) : Option Expansion :=
  if x.thrown.isSome then some x
  else if (ascii "#include").isPrefixOf line then
    match includeFile line with
    | none => some x
    | some name =>
      let path := join base name
      if path ∈ x.loaded then some x
      else match read path with
        | .closed => some x
        | .throws e => some { x with thrown := some e }
        | .contents content => (expand (path :: chain) content (parentPath path) (x.loaded ++ [path])).map fun y =>
          ⟨x.text ++ y.text, y.loaded, y.thrown, x.chains ++ (path :: chain) :: y.chains⟩
  else some { x with text := x.text ++ line ++ [10] }

/-- `Config::preprocess` of the contents of the file at the head of `chain`. -/
def preprocess (read : Bytes → Reading) : Nat → List Bytes → Bytes → Bytes → List Bytes → Option Expansion
  | 0, _, _, _, _ => none
  | n + 1, chain, content, base, loaded =>
    (getlines 10 content).foldlM (preprocessLine read (preprocess read n) chain base) ⟨[], loaded, none, []⟩

/-! ## Loading -/

structure Config where
  values : OrdMap Bytes Value
  loadedFiles : List Bytes

/-- The expansion that `load` parses, of a file with these contents. -/
def Config.expand (c : Config) (read : Bytes → Reading) (fuel : Nat) (path content : Bytes) : Option Expansion :=
  preprocess read fuel [path] content (parentPath path) (c.loadedFiles ++ [path])

/-- What `load` returns or throws, and the configuration after it. -/
def load (read : Bytes → Reading) (fuel : Nat) (path : Bytes) (c : Config) : Option (Except Exn Bool × Config) :=
  if path ∈ c.loadedFiles then some (.ok false, c)
  else match read path with
    | .closed => some (.ok false, c)
    | .throws e => some (.error e, c)
    | .contents content => do
      let x ← c.expand read fuel path content
      match x.thrown with
      | some e => some (.error e, ⟨c.values, x.loaded⟩)
      | none => do
        let (b, values) ← parsePrl fuel x.text c.values
        some (.ok b, ⟨values, x.loaded⟩)

/-- `load_defaults` over the list of default paths; `found` is `std::filesystem::exists`, which throws where the question
fails for another reason than that there is nothing. -/
def loadDefaults (found : Bytes → Except Exn Bool) (read : Bytes → Reading) (fuel : Nat) : List Bytes → Config →
    Option (Except Exn Bool × Config)
  | [], c => some (.ok false, c)
  | path :: paths, c => match found path with
    | .error e => some (.error e, c)
    | .ok false => loadDefaults found read fuel paths c
    | .ok true => do
      let (r, c) ← load read fuel path c
      match r with
      | .error e => some (.error e, c)
      | .ok true => some (.ok true, c)
      | .ok false => loadDefaults found read fuel paths c

end Passdoq.Runcom
