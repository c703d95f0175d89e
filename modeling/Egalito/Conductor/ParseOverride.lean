import Egalito.Lib.Text
/-!
# `ParseOverride`

`conductor/parseoverride.cpp`: an override file is read line by line, by two
nested readers that hand the current line to each other. A number that is never
assigned is `none`, and so is the result of a run that has not come to its end.
-/

open Egalito.Lib

namespace Egalito.ParseOverride

/-! ## The file -/

/-- The lines that are still to be read, the text behind the last newline, and `good()`. -/
structure FileStream where
  lines : List Text
  tail : Text
  good : Bool

def FileStream.open (content : Text) : FileStream :=
  ⟨(splitLines content).1, (splitLines content).2, true⟩

/-- `std::getline`. From a stream that is not good it leaves the line as it was; at the end
of the file it clears it. -/
def FileStream.getline (f : FileStream) (line : Text) : Bool × Text × FileStream :=
  if f.good then
    match f.lines with
    | l :: ls => (true, l, ⟨ls, f.tail, true⟩)
    | [] => if f.tail = [] then (false, [], ⟨[], [], false⟩) else (true, f.tail, ⟨[], [], false⟩)
  else (false, line, f)

/-! ## Blocks -/

/-- Start and size, each `none` while nothing was stored in it. -/
abbrev OverrideList := List (Option UInt64 × Option UInt64)

def parseEntry (line : Text) : Option UInt64 × Option UInt64 :=
  let (start, ss) := (TextStream.ofText line).readInt 16
  let (size, _) := ss.readInt 16
  (start, size)

/-- The other lines end a block: `line.length() == 0 || line[0] != ' '`. -/
def isEntry (line : Text) : Bool := line.head? = some ' '

/-- The loop of `parse`, for at most `count` lines. -/
def BlockBoundaryOverride.parseLines : Nat → FileStream → Text → OverrideList × Text × FileStream
  | 0, f, line => ([], line, f)
  | count + 1, f, line =>
    match f.getline line with
    | (false, line, f) => ([], line, f)
    | (true, line, f) =>
      if isEntry line then
        let (rest, line', f) := parseLines count f line
        (parseEntry line :: rest, line', f)
      else ([], line, f)

/-- A stream has its lines to give, the text behind them, and then its end. -/
def BlockBoundaryOverride.parse (f : FileStream) (line : Text) : OverrideList × Text × FileStream :=
  parseLines (f.lines.length + 2) f line

/-! ## Headers -/

/-- The address is an optional number, whose value may be indeterminate. -/
structure OverrideContext where
  module : Option Text
  func : Option Text
  address : Option (Option UInt64)
deriving DecidableEq

/-- The variables of the loop over the context words. -/
structure ContextState where
  ss : TextStream
  str : Text
  addr : Option UInt64
  context : OverrideContext

/-- One context word. An extraction that fails leaves `str` or `addr` as it is. -/
def ContextState.next (c : ContextState) (contextType : Text) (ss : TextStream) : ContextState :=
  if contextType = "module".toList then
    let (word, ss) := ss.readWord
    let str := word.getD c.str
    ⟨ss, str, c.addr, { c.context with module := some ("module-".toList ++ str) }⟩
  else if contextType = "func".toList then
    let (word, ss) := ss.readWord
    let str := word.getD c.str
    ⟨ss, str, c.addr, { c.context with func := some str }⟩
  else if contextType = "address".toList then
    let (number, ss) := ss.readInt 10
    let addr := number.or c.addr
    ⟨ss, c.str, addr, { c.context with address := some addr }⟩
  else { c with ss := ss }

/-- `while(ss >> contextType)`, for at most `count` words. -/
def parseContextWords : Nat → ContextState → OverrideContext
  | 0, c => c.context
  | count + 1, c =>
    match c.ss.readWord with
    | (none, _) => c.context
    | (some contextType, ss) => parseContextWords count (c.next contextType ss)

/-- The directive of a line, and its context. A word takes at least one character. -/
def parseHeader (line : Text) : Text × OverrideContext :=
  let (type, ss) := (TextStream.ofText line).readWord
  (type.getD [], parseContextWords ss.rest.length ⟨ss, [], none, ⟨none, none, none⟩⟩)

/-! ## Files -/

/-- The insertions into the container, in order: the last one for a context stays. -/
abbrev BlockOverrides := List (OverrideContext × OverrideList)

/-- The loop of `parseFile`, for at most `count` rounds. -/
def parseFileLoop : Nat → Text → FileStream → BlockOverrides → Option BlockOverrides
  | 0, _, _, _ => none
  | count + 1, line, f, blockOverrides =>
    if line = [] then
      match f.getline line with
      | (false, _, _) => some blockOverrides
      | (true, line, f) => parseFileLoop count line f blockOverrides
    else
      let (type, context) := parseHeader line
      if type = "blockoverride".toList then
        let (override, line, f) := BlockBoundaryOverride.parse f line
        parseFileLoop count line f (blockOverrides ++ [(context, override)])
      else parseFileLoop count line f blockOverrides

/-- `parseFile` on a file that can be opened. -/
def parseFile (count : Nat) (content : Text) : Option BlockOverrides :=
  parseFileLoop count [] (FileStream.open content) []

/-! ## What a file says -/

/-- Two numbers, as every number in hexadecimal. -/
def entryOf (line : Text) : Option (UInt64 × UInt64) :=
  match words line with
  | [start, size] => (numeral 16 start).bind fun start => (numeral 16 size).map fun size => (start, size)
  | _ => none

/-- The context words, each of them once and with its argument. -/
def contextOf : List Text → Option OverrideContext
  | [] => some ⟨none, none, none⟩
  | [_] => none
  | type :: arg :: rest => do
    let context ← contextOf rest
    if type = "module".toList ∧ context.module = none then
      return { context with module := some ("module-".toList ++ arg) }
    else if type = "func".toList ∧ context.func = none then return { context with func := some arg }
    else if type = "address".toList ∧ context.address = none then
      return { context with address := some (some (← numeral 16 arg)) }
    else none

def isHeader (line : Text) : Bool := (words line).head? = some "blockoverride".toList

/-- The headers with the lines of their blocks, from a line inside of a block or not. -/
def blocks : Bool → List Text → List (Text × List Text)
  | _, [] => []
  | inside, line :: lines =>
    if inside && isEntry line then blocks true lines
    else if isHeader line then (line, lines.takeWhile isEntry) :: blocks true lines
    else blocks false lines

/-- A well-formed block, with the well-formed of its entries. -/
def blockOf (block : Text × List Text) : Option (OverrideContext × OverrideList) :=
  (contextOf (words block.1).tail).map fun context =>
    (context, (block.2.filterMap entryOf).map fun (start, size) => (some start, some size))

def allLines (content : Text) : List Text :=
  let (lines, tail) := splitLines content
  if tail = [] then lines else lines ++ [tail]

def wellFormed (content : Text) : BlockOverrides := (blocks false (allLines content)).filterMap blockOf

/-! ## When the reader gets it -/

/-- The lines that are read as directives. -/
def directives : Bool → List Text → List Text
  | _, [] => []
  | inside, line :: lines =>
    if inside && isEntry line then directives true lines
    else if line = [] then directives false lines
    else line :: directives (isHeader line) lines

def addressArgs : List Text → List Text
  | type :: arg :: rest => if type = "address".toList then arg :: addressArgs rest else addressArgs rest
  | _ => []

/-- Read in decimal, as far as its decimal digits go, the number is what it is in hexadecimal. -/
def SameInDecimal (number : Text) : Prop := numeral 16 number = some (extractInt 10 number).value

def HeaderReadable (line : Text) : Prop :=
  (contextOf (words line).tail).isSome ∧ ∀ number ∈ addressArgs (words line).tail, SameInDecimal number

structure Readable (content : Text) : Prop where
  newline : (splitLines content).2 = []
  known : ∀ line ∈ directives false (allLines content), isHeader line
  header : ∀ block ∈ blocks false (allLines content), HeaderReadable block.1
  entry : ∀ block ∈ blocks false (allLines content), ∀ line ∈ block.2, (entryOf line).isSome

end Egalito.ParseOverride
