import Verve.Ty.Basic

/-!
# The declaration table

What reading a program declares: the root scope (each name with its type), the namespace of
type names used in annotations, and for every interface its methods and its implementations.
Interfaces, enums and constructors take their numbers from one counter.

Before any program is read the table holds the built-in types:

| root scope | type names |
| --- | --- |
| `int float char void string` for the basic types | `Int Float Char Void String` |
| `list` for the enum `List<T>` | `List` |
| `Nil` and `Cons(T, List<T>)`, its constructors | |

A later declaration of a name replaces the earlier one in both tables. An interface that a
later declaration displaced stays declared only while something still holds it
(`Decls.liveIfaces`).
-/

namespace Verve

/-- An interface declaration: its reference, its methods, and its implementations, each keyed
by the dispatch key of the implementing type. A later method of one name replaces an earlier
one. -/
structure Iface where
  ref : IfaceRef
  methods : List (String × Sig)
  impls : List (String × Ty)
  deriving Inhabited

namespace Iface

/-- The interfaces that an interface holds on to through the types of its methods and of
its implementations. -/
def heldIds (i : Iface) : List Nat :=
  i.methods.flatMap (fun m => Ty.ifaceIdsList m.2.params ++ m.2.ret.ifaceIds) ++
    i.impls.flatMap (·.2.ifaceIds)

end Iface

/-- The declaration table. Lists of bindings hold the newest first, so a lookup finds the
latest declaration of a name. -/
structure Decls where
  env : List (String × Ty)
  types : List (String × Ty)
  ifaces : List Iface
  nextId : Nat
  deriving Inhabited

/-- Keeps the first binding of each name, in the order of the list. -/
def latestBindings {α : Type} (bs : List (String × α)) : List (String × α) :=
  (bs.foldl (fun acc b => if acc.any (·.1 == b.1) then acc else b :: acc) []).reverse

namespace Decls

/-- The type a name has in the root scope. -/
def lookup (d : Decls) (x : String) : Option Ty := d.env.lookup x

/-- Binds a name in the root scope. -/
def set (d : Decls) (x : String) (t : Ty) : Decls := { d with env := (x, t) :: d.env }

/-- The type a name denotes in annotations. -/
def typeNamed? (d : Decls) (x : String) : Option Ty := d.types.lookup x

/-- Declares a type name. -/
def setType (d : Decls) (x : String) (t : Ty) : Decls := { d with types := (x, t) :: d.types }

/-- A fresh declaration number. -/
def fresh (d : Decls) : Nat × Decls := (d.nextId, { d with nextId := d.nextId + 1 })

/-- The interface of a declaration number. -/
def iface? (d : Decls) (id : Nat) : Option Iface := d.ifaces.find? (·.ref.id == id)

/-- Whether an interface has an implementation under a key. -/
def hasImpl (d : Decls) (id : Nat) (key : String) : Bool :=
  match d.iface? id with
  | some i => i.impls.any (·.1 == key)
  | none => false

/-- Whether a type implements an interface: its dispatch key has an implementation. -/
def implements (d : Decls) (id : Nat) (t : Ty) : Bool :=
  match t.dispatchKey with
  | some k => d.hasImpl id k
  | none => false

/-- Records an implementation of an interface under a key. -/
def addImpl (d : Decls) (id : Nat) (key : String) (t : Ty) : Decls :=
  { d with ifaces := d.ifaces.map fun i =>
      if i.ref.id == id then { i with impls := (key, t) :: i.impls } else i }

/-- Records a new interface. -/
def addIface (d : Decls) (i : Iface) : Decls := { d with ifaces := i :: d.ifaces }

/-- Drops from `live` every interface that neither `roots` nor a kept interface holds on to,
round after round, until a round drops none or `fuel` rounds have passed. -/
def dropUnheld (d : Decls) (roots : List Nat) : Nat → List Nat → List Nat
  | 0, live => live
  | fuel + 1, live =>
    let held := roots ++ (d.ifaces.filter (live.contains ·.ref.id)).flatMap Iface.heldIds
    let kept := live.filter (held.contains ·)
    if kept.length = live.length then live else d.dropUnheld roots fuel kept

/-- The interfaces that stay declared once reading ends. An interface is dropped as soon as
nothing holds on to it: no type name, no binding of the root scope, and no interface still
declared, through the types of its methods or of its implementations. Dropping one releases
what it holds. So an interface whose name a later declaration took is gone, and its methods
are then plain functions, unless something still holds it; one that holds itself, such as an
interface implemented for a type that names it, is never dropped. The interfaces kept are the
largest set in which each member is held by a root or by a member; each round that changes
the set drops an interface, so as many rounds as interfaces suffice. -/
def liveIfaces (d : Decls) : List Nat :=
  let roots := (latestBindings d.env ++ latestBindings d.types).flatMap (·.2.ifaceIds)
  d.dropUnheld roots (d.ifaces.length + 1) (d.ifaces.map (·.ref.id))

/-- The interface of a method, while it is among the live ones. -/
def liveOwner (live : List Nat) (o : Option IfaceRef) : Option IfaceRef :=
  o.filter (live.contains ·.id)

/-- The named types, one per name, sorted by name. -/
def typeEntries (d : Decls) : List (String × Ty) :=
  (latestBindings d.types).mergeSort (fun a b => a.1 ≤ b.1)

/-- The built-in enum of lists. -/
def listRef : EnumRef := ⟨0, "List", ["T"], ["Nil", "Cons"]⟩

/-- The table before any program is read. -/
def initial : Decls :=
  let basics := ["Int", "Float", "Char", "Void", "String"]
  let list := Ty.enum listRef
  let elem := Ty.generic "T"
  let env := basics.foldl (fun e n => (n.toLower, Ty.basic n) :: e) []
  let env := ("Nil", Ty.ctor 1 "Nil" [] list ["T"]) :: env
  let env := ("Cons", Ty.ctor 2 "Cons" [elem, .app list [elem]] list ["T"]) :: env
  let env := ("list", list) :: env
  let types := basics.foldl (fun e n => (n, Ty.basic n) :: e) []
  ⟨env, ("List", list) :: types, [], 3⟩

end Decls

/-- The types the checker gives to literals and blocks and uses for lists, read from the root
scope when checking starts: a program may rebind their names. -/
structure Builtins where
  int : Ty
  float : Ty
  string : Ty
  void : Ty
  list : Ty
  deriving Inhabited

namespace Builtins

/-- The built-in types as a root scope binds them. -/
def ofDecls (d : Decls) : Builtins :=
  { int := (d.lookup "int").getD (.basic "Int")
    float := (d.lookup "float").getD (.basic "Float")
    string := (d.lookup "string").getD (.basic "String")
    void := (d.lookup "void").getD (.basic "Void")
    list := (d.lookup "list").getD (.enum Decls.listRef) }

/-- The name of the list type's parameter. -/
def listGeneric (b : Builtins) : String :=
  match b.list with
  | .enum r => r.generics.headD "T"
  | _ => "T"

/-- The list type with an element type. -/
def listOf (b : Builtins) (t : Ty) : Ty := .app b.list [t]

end Builtins

end Verve
