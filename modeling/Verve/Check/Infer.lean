import Verve.Check.Compat
import Verve.Syntax.Node
import Verve.Parse.Program
import Verve.Token.Scan

/-!
# Inferring types

`check` gives every node of a program its type, or stops at the first fault. A node is
checked in a frame of the scopes; the rules, by form:

| form | type |
| --- | --- |
| string, number | the built-in `String`, `Float` or `Int` |
| name | its binding |
| binary operation | `Int`, once each operand, simplified, is assignable to `Int` |
| prefix operation | `Int` |
| function | its signature with the body's type as result, once the declared result accepts it |
| block | the type of its last item, `Void` when empty; its items share one new frame |
| call | the callee's result, once each argument is accepted by its parameter |
| conditional | the branch type that accepts the other |
| list | `List` of the element type that accepts all elements (a fresh generic when empty) |
| match | the case type that accepts all cases |
| let | the type of its block, in the frame of its assignments |
| assignment | the value's type; a name is bound to it, a pattern's names to its parts |
| construction | the constructor's enum applied to what its generics were bound to |

Generics of a called function are bound in a frame of the call; those left unbound get a
fresh name (`T#3`), so no two calls share one. A call of an interface method whose
parameter is found to be a type with an implementation records the implementation it
dispatches to.

Every node checked counts one level of nesting, and a node nested deeper than the limit is
a fault.
-/

namespace Verve

/-- What checking reads: the declaration table, the built-in types, the nesting limit and the
live interfaces. -/
structure Setting where
  decls : Decls
  builtins : Builtins
  maxDepth : Nat
  live : List Nat

/-- What checking changes: the scopes, and how many fresh generics were made. -/
structure Store where
  scopes : Scopes
  fresh : Nat

/-- A step of checking. A fault stops it and keeps the store as the fault left it. -/
abbrev Check := ReaderT Setting (ExceptT Located (StateM Store))

/-- What a node's surroundings pass to it: nothing, the frame a block is to use, or the type
of the value a case is matched against. -/
inductive Ctx where
  | plain
  | scope (frame : Nat)
  | subject (t : Ty)

namespace Check

/-- The binding of a name seen from a frame. -/
def lookupName (i : Nat) (x : String) : Check (Option Ty) := do
  pure ((← get).scopes.get i x)

/-- Binds a name in a frame. -/
def bindName (i : Nat) (x : String) (t : Ty) : Check Unit :=
  modify fun ⟨scopes, fresh⟩ => ⟨scopes.set i x t, fresh⟩

/-- Opens a frame inside a frame. -/
def openFrame (i : Nat) : Check Nat :=
  modifyGet fun ⟨scopes, fresh⟩ =>
    let (s, j) := scopes.child i
    (j, ⟨s, fresh⟩)

/-- Simplifies a type in a frame. -/
def simp (i : Nat) (t : Ty) : Check Ty := do
  pure ((← get).scopes.simplify i t)

/-- A fresh generic made from a name. -/
def freshGeneric (name : String) : Check Ty :=
  modifyGet fun st =>
    (.generic (name ++ "#" ++ Nat.repr (st.fresh + 1)), { st with fresh := st.fresh + 1 })

/-- The answer of a search; a search without end is a fault at `pos`. -/
def answer (o : Outcome) (pos : Nat) : Check Bool :=
  match o with
  | .holds _ => pure true
  | .fails => pure false
  | .endless => throw ⟨.endless, pos⟩

/-- Whether `a` is assignable to `e` in a frame. -/
def assignable (i : Nat) (e a : Ty) (pos : Nat) : Check Bool := do
  let v : View := ⟨(← get).scopes, i, (← read).decls⟩
  answer (v.assignable e a) pos

/-- Runs a search that may bind generics in a frame. -/
def binding (f : View → Ty → Ty → Outcome × Scopes) (i : Nat) (e a : Ty) (pos : Nat) :
    Check Bool := do
  let d := (← read).decls
  let o ← modifyGet fun ⟨scopes, fresh⟩ =>
    let (o, s) := f ⟨scopes, i, d⟩ e a
    (o, ⟨s, fresh⟩)
  answer o pos

/-- `View.unify` in a frame. -/
def unify (i : Nat) (e a : Ty) (pos : Nat) : Check Bool := binding View.unify i e a pos

/-- `View.accepts` in a frame. -/
def accepts (i : Nat) (e a : Ty) (pos : Nat) : Check Bool := binding View.accepts i e a pos

/-- Binds a signature's generics to themselves in a frame, and the parameter of a live
interface that declares the signature as a method to the interface. -/
def installGenerics (scope : Nat) (sig : Sig) : Check Unit := do
  for g in sig.generics do
    bindName scope g (.generic g)
  if let some r := Decls.liveOwner (← read).live sig.owner then
    bindName scope r.generic (.iface r)

/-- Gives each generic that is still bound to itself in a frame a fresh name. -/
def closeGenerics (gs : List String) (scope : Nat) : Check Unit := do
  for g in gs do
    let t ← simp scope (.generic g)
    if t.isGenericNamed g then
      let f ← freshGeneric g
      bindName scope g f

/-- The type that fits two types: the current one if it accepts the next, else the next if
it accepts the current, each tried in a frame of its own; the pair `(next, current)` when
neither does. -/
def widen (env : Nat) (cur : Option Ty) (next : Ty) (pos : Nat) :
    Check (Except (Ty × Ty) Ty) := do
  match cur with
  | none => pure (.ok next)
  | some c =>
    let trial ← openFrame env
    if ← accepts trial c next pos then pure (.ok (← simp trial c))
    else
      let trial ← openFrame env
      if ← accepts trial next c pos then pure (.ok (← simp trial next))
      else pure (.error (next, c))

/-- The type of the values a constructor builds: its enum, applied to the enum's generics
when it has any. -/
def owningType (sig : Sig) : Ty :=
  match sig.ret with
  | .enum r => if r.generics.isEmpty then sig.ret else .app sig.ret (r.generics.map .generic)
  | t => t

/-- The signature of the constructor a pattern names. -/
def lookupCtor (env : Nat) (name : String) (pos : Nat) : Check Sig := do
  match (← lookupName env name).bind Ty.ctorSig? with
  | some s => pure s
  | none => throw ⟨.unknownConstructor name, pos⟩

/-- Binds the names of a pattern, in `scope`, to the parts of a constructor's value; the
constructor's generics are first matched against the value's type, when there is one. The
pattern node records the type it matches. -/
def bindPattern (p : Node) (csig : Sig) (value : Option Ty) (scope : Nat) : Check Node := do
  match p.form with
  | .pattern _ bs =>
    if bs.length ≠ csig.params.length then
      throw ⟨.arity csig.name csig.params.length bs.length, p.span.start⟩
    let cs ← openFrame scope
    for g in csig.generics do
      bindName cs g (.generic g)
    let owner := owningType csig
    if let some v := value then
      let _ ← unify cs owner v p.span.start
    closeGenerics csig.generics cs
    for (b, param) in bs.zip csig.params do
      bindName scope b.name (← simp cs param)
    pure (p.withTy (← simp cs owner))
  | _ => pure p

/-- Before the arguments of a call: their number, then a frame for the callee's generics. -/
def openCall (env : Nat) (f : Sig) (loc : Nat) (count : Nat) : Check Nat := do
  if count ≠ f.params.length then
    throw ⟨.arity f.name f.params.length count, loc⟩
  let scope ← openFrame env
  installGenerics scope f
  pure scope

/-- After the arguments of a call: fresh names for unbound generics, then the result type,
an enum applied to what its generics are bound to. -/
def closeCall (f : Sig) (scope : Nat) : Check Ty := do
  closeGenerics f.generics scope
  match f.ret with
  | .enum r =>
    if r.generics.isEmpty then simp scope f.ret
    else pure (.app f.ret (← r.generics.mapM fun g => simp scope (.generic g)))
  | t => simp scope t

/-- The implementation that a call of a method of a live interface reaches, if the
interface's parameter is bound to a type with a dispatch key and a function of the method's
name and that key is in scope. -/
def dispatchOf (env scope : Nat) (f : Sig) : Check (Option Dispatch) := do
  match Decls.liveOwner (← read).live f.owner with
  | none => pure none
  | some r =>
    match (← simp scope (.generic r.generic)).dispatchKey with
    | none => pure none
    | some k =>
      let sym := f.name ++ k
      match ← lookupName env sym with
      | some t@(.fn _ _ _ _ _) => pure (some ⟨sym, t⟩)
      | _ => pure none

mutual

/-- Checks a node nested `d` deep, in frame `env`. -/
def typeOf (d : Nat) (env : Nat) (ctx : Ctx) : Node → Check (Ty × Node)
  | .mk f sp _ => do
    let max := (← read).maxDepth
    if max < d + 1 then throw ⟨.recursionLimit max, sp.start⟩
    let (t, f') ← inferForm (d + 1) env ctx sp f
    pure (t, .mk f' sp (some t))

/-- The type of a form at a span. -/
def inferForm (d : Nat) (env : Nat) (ctx : Ctx) (sp : Span) : Form → Check (Ty × Form)
  | .str v => do pure ((← read).builtins.string, .str v)
  | .num l => do
    let b := (← read).builtins
    pure (if l.isFloat then b.float else b.int, .num l)
  | .ident x => do
    match ← lookupName env x with
    | some t => pure (t, .ident x)
    | none => throw ⟨.unknownTypeError x, sp.start⟩
  | .binary op l r => do
    let int := (← read).builtins.int
    let (lt, l') ← typeOf d env .plain l
    let lt ← simp env lt
    unless ← assignable env int lt l.span.start do
      throw ⟨.operandType .left lt, l.span.start⟩
    let (rt, r') ← typeOf d env .plain r
    let rt ← simp env rt
    unless ← assignable env int rt r.span.start do
      throw ⟨.operandType .right rt, r.span.start⟩
    pure (int, .binary op l' r')
  | .unary op o => do
    let (_, o') ← typeOf d env .plain o
    pure ((← read).builtins.int, .unary op o')
  | .func x ps body => do
    let sig ← match (← lookupName env x).bind Ty.sig? with
      | some s => pure s
      | none => throw ⟨.missingSignature x, body.span.start⟩
    if sig.params.length ≠ ps.length then
      throw ⟨.arity x sig.params.length ps.length, body.span.start⟩
    let scope ← openFrame env
    installGenerics scope sig
    for (p, t) in ps.zip sig.params do
      bindName scope p.name t
    let (bt, body') ← typeOf d scope .plain body
    let expected ← simp scope sig.ret
    let actual ← simp scope bt
    unless ← accepts scope expected actual body.span.start do
      throw ⟨.returnTypeMismatch expected actual, body.span.start⟩
    pure ({ sig with ret := actual }.toTy, .func x ps body')
  | .block items => do
    let scope ← match ctx with
      | .scope f => pure f
      | _ => openFrame env
    let (t, items') ← typeBlock d scope (← read).builtins.void items
    pure (t, .block items')
  | .call callee args _ => do
    let (ct, callee') ← typeOf d env .plain callee
    let ct ← simp env ct
    let f ← match ct.sig? with
      | some f => pure f
      | none => throw ⟨.notCallable callee.describe, callee.span.start⟩
    let scope ← openCall env f sp.start args.length
    let args' ← typeArgs d env scope f 1 args f.params
    let ret ← closeCall f scope
    let dispatch ← dispatchOf env scope f
    pure (← simp env ret, .call callee' args' dispatch)
  | .cond c t none => do
    let (_, c') ← typeOf d env .plain c
    let (tt, t') ← typeOf d env .plain t
    pure (← simp env tt, .cond c' t' none)
  | .cond c t (some e) => do
    let (_, c') ← typeOf d env .plain c
    let (tt, t') ← typeOf d env .plain t
    let it ← simp env tt
    let (et, e') ← typeOf d env .plain e
    let et ← simp env et
    match ← widen env (some it) et sp.start with
    | .ok w => pure (w, .cond c' t' (some e'))
    | .error (next, cur) => throw ⟨.branchTypeMismatch cur next, sp.start⟩
  | .list items => do
    let (elem, items') ← typeItems d env none items
    let elem ← match elem with
      | some t => simp env t
      | none => freshGeneric (← read).builtins.listGeneric
    pure ((← read).builtins.listOf elem, .list items')
  | .matchOn value cases => do
    let (vt, value') ← typeOf d env .plain value
    let subject ← simp env vt
    if cases.isEmpty then throw ⟨.emptyMatch, sp.start⟩
    let (result, cases') ← typeCases d env subject none cases
    let t ← match result with
      | some t => simp env t
      | none => pure (← read).builtins.void
    pure (t, .matchOn value' cases')
  | .case p body => do
    match p.form with
    | .pattern c _ =>
      let csig ← lookupCtor env c p.span.start
      let scope ← openFrame env
      let subject := match ctx with
        | .subject t => some t
        | _ => none
      let p' ← bindPattern p csig subject scope
      let (bt, body') ← typeOf d scope .plain body
      pure (bt, .case p' body')
    | _ => throw ⟨.unknownConstructor p.describe, p.span.start⟩
  | .letIn assignments body => do
    let scope ← openFrame env
    let assignments' ← typeAssignments d scope assignments
    let (bt, body') ← typeOf d scope (.scope scope) body
    pure (bt, .letIn assignments' body')
  | .assign left value => do
    let (vt, value') ← typeOf d env .plain value
    let v ← simp env vt
    match left.form with
    | .ident x =>
      bindName env x v
      pure (v, .assign (left.withTy v) value')
    | .pattern c _ =>
      let csig ← lookupCtor env c left.span.start
      let owner := owningType csig
      unless ← assignable env v owner left.span.start do
        throw ⟨.patternMismatch v csig.name, left.span.start⟩
      let left' ← bindPattern left csig (some v) env
      pure (v, .assign left' value')
    | _ => throw ⟨.unknownTypeError left.describe, left.span.start⟩
  | .construct x args => do
    let csig ← match (← lookupName env x).bind Ty.ctorSig? with
      | some s => pure s
      | none => throw ⟨.undefinedConstructor x, sp.start⟩
    let scope ← openCall env csig sp.start args.length
    let args' ← typeArgs d env scope csig 1 args csig.params
    let ret ← closeCall csig scope
    pure (ret, .construct x args')
  | .pattern c bs => do
    let csig ← lookupCtor env c sp.start
    pure (owningType csig, .pattern c bs)

/-- The items of a block in order; the type of the last, or `last` when there are none. -/
def typeBlock (d : Nat) (scope : Nat) (last : Ty) : List Node → Check (Ty × List Node)
  | [] => pure (last, [])
  | n :: ns => do
    let (t, n') ← typeOf d scope .plain n
    let (t', ns') ← typeBlock d scope t ns
    pure (t', n' :: ns')

/-- The arguments of a call, each accepted by its parameter in the call's frame; `pos`
counts the arguments from 1. -/
def typeArgs (d : Nat) (env scope : Nat) (f : Sig) (pos : Nat) :
    List Node → List Ty → Check (List Node)
  | a :: as, p :: ps => do
    let expected ← simp scope p
    let (at_, a') ← typeOf d env .plain a
    let actual ← simp env at_
    unless ← accepts scope expected actual a.span.start do
      match expected with
      | .iface r => throw ⟨.missingImplementation r.name actual, a.span.start⟩
      | _ => throw ⟨.argumentType f.name expected actual pos, a.span.start⟩
    let as' ← typeArgs d env scope f (pos + 1) as ps
    pure (a' :: as')
  | as, _ => pure as

/-- The elements of a list, widening the element type in turn. -/
def typeItems (d : Nat) (env : Nat) (elem : Option Ty) : List Node → Check (Option Ty × List Node)
  | [] => pure (elem, [])
  | n :: ns => do
    let (t, n') ← typeOf d env .plain n
    let t ← simp env t
    match ← widen env elem t n.span.start with
    | .ok w =>
      let (e, ns') ← typeItems d env (some w) ns
      pure (e, n' :: ns')
    | .error (found, inferred) => throw ⟨.mixedListType found inferred, n.span.start⟩

/-- The cases of a match against a subject, widening the result type in turn. -/
def typeCases (d : Nat) (env : Nat) (subject : Ty) (result : Option Ty) :
    List Node → Check (Option Ty × List Node)
  | [] => pure (result, [])
  | c :: cs => do
    let (t, c') ← typeOf d env (.subject subject) c
    let t ← simp env t
    match ← widen env result t c.span.start with
    | .ok w =>
      let (r, cs') ← typeCases d env subject (some w) cs
      pure (r, c' :: cs')
    | .error (found, inferred) => throw ⟨.mixedMatchType found inferred, c.span.start⟩

/-- The assignments of a `let`, in its frame. -/
def typeAssignments (d : Nat) (scope : Nat) : List Node → Check (List Node)
  | [] => pure []
  | a :: as => do
    let (_, a') ← typeOf d scope .plain a
    let as' ← typeAssignments d scope as
    pure (a' :: as')

end

end Check

/-- Checks a program with a nesting limit: the type of its root block and the tree with every
checked node's type, or the first fault. -/
def check (prog : Program) (maxDepth : Nat) : Except Located (Ty × Node) :=
  let setting : Setting := ⟨prog.decls, Builtins.ofDecls prog.decls, maxDepth, prog.decls.liveIfaces⟩
  let store : Store := ⟨Scopes.ofRoot prog.decls.env, 0⟩
  (((Check.typeOf 0 0 .plain prog.body).run setting).run.run store).run.1

/-- The step of checking a source at which a fault stopped it. -/
inductive Stage where
  | scan
  | read
  | check
  deriving DecidableEq, Inhabited

/-- Scans, reads and checks a source text. -/
def checkSource (source : String) (maxDepth : Nat) : Except (Stage × Located) (Ty × Node) := do
  let toks ← (Token.scan source).mapError (Stage.scan, ·)
  let prog ← (Parse.program toks).mapError (Stage.read, ·)
  (check prog maxDepth).mapError (Stage.check, ·)

end Verve
