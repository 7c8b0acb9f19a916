import Verve.Ty.Basic
import Verve.Text.Blank
import Verve.Text.Lines

/-!
# Faults

What stops the reading or the checking of a program, where it stopped, and the report that
points at the place.

Every fault has a name (`Fault.name`) and, all but an unrecognised character, a tip that says
what went wrong (`Fault.tip`). A report reads

```text
Error: NAME (TIP)
-> FILE
  |
1 | the line of the fault
  | ------^
```

where the gutter is two wider than the line number, the quoted line loses its leading spaces
and tabs and its trailing blanks, and the caret stands under the fault's byte. A position
past the end of the source gives the first two lines only.
-/

namespace Verve

/-- The operand of a binary operation. -/
inductive Side where
  | left
  | right
  deriving DecidableEq, Inhabited

/-- The word for a side in a tip. -/
def Side.word : Side → String
  | .left => "left"
  | .right => "right"

/-- What stops the reading or the checking of a program. -/
inductive Fault where
  /-- No token begins with this character. -/
  | unrecognisedToken (token : String)
  /-- A token that the grammar does not allow here. -/
  | unexpectedToken (token : String)
  /-- A token that the grammar does not allow here, with what was expected. -/
  | unexpectedTokenDetailed (token message : String)
  /-- An integer literal beyond the 64-bit range. -/
  | numberParse (token : String)
  /-- A type name that no declaration introduces, or a type that keys no implementation. -/
  | unknownType (name : String)
  /-- An implementation of a name that is no interface. -/
  | unknownInterface (name : String)
  /-- An implementation of a method that the interface does not declare. -/
  | unknownMethod (iface method : String)
  /-- A second implementation of an interface for one key. -/
  | duplicateImplementation (iface key : String)
  /-- A call, a definition or a pattern with the wrong number of arguments. -/
  | arity (function : String) (expected received : Nat)
  /-- A name without a type in scope. -/
  | unknownTypeError (expression : String)
  /-- An argument that its parameter does not accept (`position` counts from 1). -/
  | argumentType (function : String) (expected received : Ty) (position : Nat)
  /-- An argument for an interface parameter whose type does not implement it. -/
  | missingImplementation (iface : String) (ty : Ty)
  /-- A body whose type the declared result does not accept. -/
  | returnTypeMismatch (expected received : Ty)
  /-- A function definition whose name has no function type in scope. -/
  | missingSignature (function : String)
  /-- An operand of a binary operation that is not an integer. -/
  | operandType (side : Side) (found : Ty)
  /-- Two branches of a conditional, neither of whose types accepts the other. -/
  | branchTypeMismatch (thenTy elseTy : Ty)
  /-- A list element that fits neither way with the elements before it. -/
  | mixedListType (found inferred : Ty)
  /-- A match case that fits neither way with the cases before it. -/
  | mixedMatchType (found inferred : Ty)
  /-- A match without cases. -/
  | emptyMatch
  /-- A pattern whose name is no constructor in scope. -/
  | unknownConstructor (name : String)
  /-- A construction whose name is no constructor in scope. -/
  | undefinedConstructor (name : String)
  /-- A pattern that cannot match a value of the assigned type. -/
  | patternMismatch (value : Ty) (ctor : String)
  /-- A call of something that is not a function. -/
  | notCallable (found : String)
  /-- Expressions nested deeper than the limit. -/
  | recursionLimit (limit : Nat)
  /-- A compatibility search that would follow interface parameters round a cycle forever. -/
  | endless
  /-- A reader that used up its fuel; reading with the fuel a token list is given never does. -/
  | outOfFuel
  deriving Inhabited

namespace Fault

/-- The name of a fault's kind. -/
def name : Fault → String
  | .unrecognisedToken _ => "UnrecognisedToken"
  | .unexpectedToken _ => "UnexpectedToken"
  | .unexpectedTokenDetailed _ _ => "UnexpectedTokenDetailed"
  | .numberParse _ => "NumberParseError"
  | .unknownType _ => "UnknownType"
  | .unknownInterface _ => "UnknownInterface"
  | .unknownMethod _ _ => "UnknownMethod"
  | .duplicateImplementation _ _ => "DuplicateImplementation"
  | .arity _ _ _ => "ArityError"
  | .unknownTypeError _ => "UnknownTypeError"
  | .argumentType _ _ _ _ => "ArgumentTypeError"
  | .missingImplementation _ _ => "MissingImplementation"
  | .returnTypeMismatch _ _ => "ReturnTypeMismatch"
  | .missingSignature _ => "MissingSignature"
  | .operandType _ _ => "OperandTypeError"
  | .branchTypeMismatch _ _ => "BranchTypeMismatch"
  | .mixedListType _ _ => "MixedListTypeError"
  | .mixedMatchType _ _ => "MixedMatchTypeError"
  | .emptyMatch => "EmptyMatch"
  | .unknownConstructor _ => "UnknownConstructor"
  | .undefinedConstructor _ => "UndefinedConstructor"
  | .patternMismatch _ _ => "PatternMismatch"
  | .notCallable _ => "NotCallable"
  | .recursionLimit _ => "RecursionLimit"
  | .endless => "Endless"
  | .outOfFuel => "OutOfFuel"

/-- A text between grave accents, as tips quote code. -/
def quote (s : String) : String := "\x60" ++ s ++ "\x60"

/-- What a fault tells the programmer; an unrecognised character tells nothing more. -/
def tip : Fault → Option String
  | .unrecognisedToken _ => none
  | .unexpectedToken t => some ("Unexpected token: " ++ quote t)
  | .unexpectedTokenDetailed t m => some ("Unexpected token: " ++ quote t ++ ", " ++ m)
  | .numberParse t => some ("Invalid number: " ++ quote t ++ ", is it above the integer limit?")
  | .unknownType t => some ("Unknown type " ++ quote t ++ " found")
  | .unknownInterface i => some ("Cannot find interface " ++ quote i ++ " for implementation")
  | .unknownMethod i m =>
    some ("Interface " ++ quote i ++ " does not declare a method " ++ quote m)
  | .duplicateImplementation i t =>
    some ("Interface " ++ quote i ++ " is already implemented for " ++ quote t)
  | .arity f e r =>
    some ("Wrong number of arguments for " ++ quote f ++ ": expected " ++ Nat.repr e ++
      ", received " ++ Nat.repr r)
  | .unknownTypeError x => some ("Unknown type for expression " ++ quote x)
  | .argumentType f e r p =>
    some ("Expected " ++ quote e.display ++ " but got " ++ quote r.display ++ " on arg #" ++
      Nat.repr p ++ " for function " ++ quote f)
  | .missingImplementation i t =>
    some ("No implementation of " ++ quote i ++ " found for " ++ quote t.display)
  | .returnTypeMismatch e r =>
    some ("Invalid return type for function: expected " ++ quote e.display ++ " but got " ++
      quote r.display)
  | .missingSignature f => some ("Couldn't find type information for function " ++ quote f)
  | .operandType s t =>
    some ("Binary operations only accept " ++ quote "Int" ++ ", but found " ++
      quote t.display ++ " on the " ++ s.word ++ " side")
  | .branchTypeMismatch a b =>
    some (quote "if" ++ " and " ++ quote "else" ++
      " branches evaluate to different types: " ++ quote a.display ++ " and " ++
      quote b.display)
  | .mixedListType f i =>
    some ("Lists can't have mixed types: found an element of type " ++ quote f.display ++
      " when elements' inferred type was " ++ quote i.display)
  | .mixedMatchType f i =>
    some ("Match can't have mixed types on its cases: found a case with type " ++
      quote f.display ++ " when previous cases' inferred type was " ++ quote i.display)
  | .emptyMatch => some ("Cannot have " ++ quote "match" ++ " expression with no cases")
  | .unknownConstructor c => some ("Unknown constructor " ++ quote c ++ " on pattern match")
  | .undefinedConstructor c => some ("Undefined constructor: " ++ quote c)
  | .patternMismatch v c =>
    some ("Trying to pattern match value of type " ++ quote v.display ++
      " with constructor " ++ quote c)
  | .notCallable x => some ("Can't find type information for function call on " ++ quote x)
  | .recursionLimit n => some ("Expression nesting exceeds the limit of " ++ Nat.repr n)
  | .endless => some "The compatibility search follows interface parameters round a cycle"
  | .outOfFuel => some "Reading used up its fuel"

end Fault

/-- A fault at a byte position of the text being read. -/
structure Located where
  fault : Fault
  pos : Nat
  deriving Inhabited

namespace Located

/-- Spaces and tabs at the start of a line, and the rest. -/
def splitIndent (cs : List Char) : List Char × Nat :=
  let n := (cs.takeWhile (fun c => c == ' ' || c == '\t')).length
  (cs.drop n, n)

/-- The report of a fault in the text `source` of the file `file`. -/
def report (e : Located) (file source : String) : String :=
  let head := match e.fault.tip with
    | none => "Error: " ++ e.fault.name ++ "\n"
    | some t => "Error: " ++ e.fault.name ++ " (" ++ t ++ ")\n"
  let head := head ++ "-> " ++ file ++ "\n"
  match Text.lineAt source e.pos with
  | none => head
  | some l =>
    let num := Nat.repr l.number
    let bar := String.ofList (List.replicate (num.length + 1) ' ') ++ "|"
    let (body, removed) := splitIndent l.text.toList
    head ++ bar ++ "\n" ++ num ++ " | " ++ String.ofList (Text.trimEnd body) ++ "\n" ++
      bar ++ " " ++ String.ofList (List.replicate (l.offset - removed) '-') ++ "^"

end Located

end Verve
