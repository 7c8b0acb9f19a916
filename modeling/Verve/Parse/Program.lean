import Verve.Parse.Expression

/-!
# Reading a program

A program is a sequence of items up to the end mark. Reading it gives the root block, which
spans from the start of the source to the end of the last consumed token, and the
declaration table. A token list that does not end with the end mark gets one at the end of
its last token.
-/

namespace Verve

/-- A program that has been read: its root block and its declarations. -/
structure Program where
  body : Node
  decls : Decls
  deriving Inhabited

namespace Parse

/-- Items up to the end mark. -/
def programItems : Nat → List Node → Reader (List Node)
  | 0, _ => outOfFuel
  | fuel + 1, acc => do
    if (← current).kind = .eof then pure acc.reverse
    else
      let xs ← item fuel
      programItems fuel (xs.reverse ++ acc)

/-- The token list with an end mark at its end. -/
def withEnd (toks : Array Token) : Array Token :=
  match toks.back? with
  | some t => if t.kind = .eof then toks else toks.push (eofAt t.span.stop)
  | none => toks.push (eofAt 0)

/-- The fuel for reading a token list: every cycle of calls consumes a token, and no chain of
calls that consumes none is longer than eight. -/
def fuelFor (toks : Array Token) : Nat := 16 * (toks.size + 1)

/-- Reads a program from tokens, starting from the declaration table `d`. -/
def program (toks : Array Token) (d : Decls := Decls.initial) : Except Located Program :=
  let toks := withEnd toks
  let run : Reader Program := do
    let items ← programItems (fuelFor toks) []
    pure ⟨.mk (.block items) (← spanFrom 0) none, (← get).decls⟩
  (run.run ⟨toks, 0, d, []⟩).map (·.1)

/-- Reads one type expression from tokens, with a declaration table and generic names in scope;
also returns whether tokens other than the end mark are left. -/
def typeExprOf (toks : Array Token) (d : Decls) (generics : List String) :
    Except Located (Ty × Bool) :=
  let toks := withEnd toks
  let run : Reader (Ty × Bool) := do
    let t ← typeExpr (fuelFor toks)
    pure (t, (← current).kind ≠ .eof)
  (run.run ⟨toks, 0, d, generics⟩).map (·.1)

end Parse

end Verve
