import NyanSD.Daemon
import NyanSD.LocalAddress
import NyanSD.Foundation.SortedSet
import NyanSD.Foundation.TextLines

/-!
# The INI parser

The service files are read line by line through a buffer of fixed size. A handler is
called for every name and value, and the number of the first bad line is the result;
what is behind it is parsed nevertheless. The reader class passes a handler that files
the values under one key for section and name.
-/

namespace NyanSD.Ini

open StdString TextLines

/-! ## Helpers -/

def iniMaxLine : Nat := 200

def maxSection : Nat := 50

def maxName : Nat := 50

def semicolon : UInt8 := ';'.toUInt8

def hash : UInt8 := '#'.toUInt8

def bracket : UInt8 := '['.toUInt8

def closing : UInt8 := ']'.toUInt8

def equals : UInt8 := '='.toUInt8

/-- The UTF-8 byte order mark. -/
def bom : Bytes := [0xEF, 0xBB, 0xBF]

def rstrip (s : Bytes) : Bytes := s.rdropWhile isSpace

def lskip (s : Bytes) : Bytes := s.dropWhile isSpace

/-- The text in front of the pointer that is returned, and the text from there. -/
def findCharsOrComment (chars : Bytes) : Bool → Bytes → Bytes × Bytes
  | _, [] => ([], [])
  | wasSpace, c :: rest =>
      if c ∈ chars ∨ (wasSpace = true ∧ c = semicolon) then ([], c :: rest)
      else
        let (before, found) := findCharsOrComment chars (isSpace c) rest
        (c :: before, found)

def strncpy0 (src : Bytes) (size : Nat) : Bytes := src.take (size - 1)

/-! ## The parser -/

/-- What the handler returns says whether it accepts the value. -/
abbrev IniHandler (User : Type) := User → Bytes → Bytes → Bytes → Bool × User

/-- The variables of the loop; `title` is the array `section`. -/
structure ParseState (User : Type) where
  title : Bytes := []
  prevName : Bytes := []
  lineno : Nat := 0
  error : Nat := 0
  user : User

namespace ParseState

variable {User : Type} (s : ParseState User)

/-- Only the first error is kept. -/
def fail : ParseState User := if s.error = 0 then { s with error := s.lineno } else s

def call (handler : IniHandler User) (name value : Bytes) : ParseState User :=
  let (accepted, user) := handler s.user s.title name value
  if accepted then { s with user } else ({ s with user } : ParseState User).fail

end ParseState

section Parser

variable {User : Type} (handler : IniHandler User)

/-- The text up to an inline comment, stripped. -/
def uncommented (text : Bytes) : Bytes := rstrip (findCharsOrComment [] false text).1

/-- A `[section]` line behind its bracket. -/
def parseSection (s : ParseState User) (text : Bytes) : ParseState User :=
  let (title, found) := findCharsOrComment [closing] false text
  if found.head? = some closing then { s with title := strncpy0 title maxSection, prevName := [] }
  else s.fail

/-- A name, one of the two separators and a value. -/
def parsePair (s : ParseState User) (start : Bytes) : ParseState User :=
  let (name, found) := findCharsOrComment [equals, colon] false start
  if found.head? = some equals ∨ found.head? = some colon then
    let name := rstrip name
    let value := uncommented (lskip found.tail)
    { s with prevName := strncpy0 name maxName }.call handler name value
  else s.fail

/-- One turn of the loop. `start` has moved when a byte order mark or white space is in front
of the text. -/
def parseLine (s : ParseState User) (buffer : Bytes) : ParseState User :=
  let s := { s with lineno := s.lineno + 1 }
  let line := cString buffer
  let marked := s.lineno = 1 ∧ bom <+: line
  let stripped := rstrip (if marked then line.drop bom.length else line)
  let start := lskip stripped
  let moved := marked ∨ start.length < stripped.length
  match start with
  | [] => s
  | c :: rest =>
      if c = semicolon ∨ c = hash then s
      -- a continuation of the value before it
      else if s.prevName ≠ [] ∧ moved then s.call handler s.prevName (uncommented start)
      else if c = bracket then parseSection s rest
      else parsePair handler s start

/-- The loop over what the reader returns. -/
def iniParseStream (buffers : List Bytes) (user : User) : ParseState User :=
  buffers.foldl (parseLine handler) { user }

/-- The result is the error and what the handler made of `user`. -/
def iniParseFile (file : Bytes) (user : User) : Nat × User :=
  let s := iniParseStream handler (readLines iniMaxLine file) user
  (s.error, s.user)

/-- A file that cannot be opened is `none`. -/
def iniParse (file : Option Bytes) (user : User) : Int × User :=
  match file with
  | none => (-1, user)
  | some file =>
      let (error, user) := iniParseFile handler file user
      (error, user)

end Parser

/-! ## The reader -/

def toLower (c : UInt8) : UInt8 := if 65 ≤ c ∧ c ≤ 90 then c + 32 else c

/-- `std::transform` with `::tolower`, in the locale `main` starts in. -/
def lower (text : Bytes) : Bytes := text.map toLower

def makeKey (title name : Bytes) : Bytes := lower (title ++ [equals] ++ name)

/-- `_values` and `_sections`, the latter in the order of the set. -/
structure Entries where
  values : Bytes → Option Bytes := fun _ => none
  sections : List Bytes := []

/-- `ValueHandler`: values of one key are joined with newlines, unless there is nothing yet. -/
def valueHandler : IniHandler Entries := fun reader title name value =>
  let key := makeKey title name
  let held := (reader.values key).getD []
  let held := if 0 < held.length then held ++ [newline] else held
  (true,
    { values := Function.update reader.values key (some (held ++ value))
      sections := SortedSet.insert title reader.sections })

structure INIReader where
  error : Int
  entries : Entries

namespace INIReader

/-- The constructor. -/
def ofFile (file : Option Bytes) : INIReader :=
  let (error, entries) := iniParse valueHandler file {}
  { error, entries }

/-- What the daemon asks a reader for. -/
def view (reader : INIReader) : Daemon.INIReader where
  parseError := reader.error
  sections := reader.entries.sections
  values title name := reader.entries.values (makeKey title name)

end INIReader

end NyanSD.Ini
