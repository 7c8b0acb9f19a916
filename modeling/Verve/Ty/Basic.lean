/-!
# Types

The types that Verve programs are checked against.

| constructor | written | two of them are the same when |
| --- | --- | --- |
| `basic` | `Int` | their names agree |
| `generic` | `T`, a fresh copy `T#3` also as `T` | their full names agree |
| `app` | `List<Int>` | heads and arguments are the same |
| `fn` | `fn(Int, T): T` | names, parameters and results are the same |
| `iface` | `Show` | they come from one declaration |
| `enum` | `Option` | they come from one declaration |
| `data` | `Pair` | they come from one declaration |
| `ctor` | `Some` | they come from one declaration |

A declaration of an interface, an enum or a constructor receives a number when it is read,
and that number is its identity: two enums of one name declared twice stay apart. A `data`
type constructor is declared by whoever builds a table by hand; reading a program never makes
one.

Types are spelled in two ways (`Spelling`): `display`, the way a programmer reads them, and
`tagged`, which writes a generic as `?` and its full name and an interface as `%` and its
name, so that tables of declarations can tell them from basic types.
-/

namespace Verve

/-- An interface as a type refers to it: the number of its declaration, its name and the
name of its single type parameter. -/
structure IfaceRef where
  id : Nat
  name : String
  generic : String
  deriving Inhabited, DecidableEq

/-- An enum as a type refers to it: the number of its declaration, its name, its type
parameters and the constructor names listed when the declaration was first scanned. -/
structure EnumRef where
  id : Nat
  name : String
  generics : List String
  ctors : List String
  deriving Inhabited, DecidableEq

/-- A type constructor such as `Pair` as a type refers to it: the number of its declaration,
its name and how many arguments it takes. -/
structure DataRef where
  id : Nat
  name : String
  arity : Nat
  deriving Inhabited, DecidableEq

/-- Types of Verve. -/
inductive Ty where
  /-- A named atomic type such as `Int` or `String`. -/
  | basic (name : String)
  /-- A type variable. Fresh copies made while checking carry a `#n` suffix. -/
  | generic (name : String)
  /-- A type constructor applied to arguments, such as `List<Int>`. -/
  | app (head : Ty) (args : List Ty)
  /-- A function type. `name` is the declared function's name (`fn` for a written type),
  `generics` its type parameters, and `owner` the interface that declares it as a method. -/
  | fn (name : String) (params : List Ty) (ret : Ty) (generics : List String)
      (owner : Option IfaceRef)
  /-- An interface. -/
  | iface (ref : IfaceRef)
  /-- An enum, not applied to arguments. -/
  | enum (ref : EnumRef)
  /-- A type constructor other than an enum, not applied to arguments. -/
  | data (ref : DataRef)
  /-- A constructor of an enum with the signature that builds a value: its parameters, the
  enum it returns and the enum's type parameters. -/
  | ctor (id : Nat) (name : String) (params : List Ty) (ret : Ty) (generics : List String)
  deriving Inhabited

/-- A function signature: the name, parameter types, result type and type parameters of a
declared function, an interface method or a constructor, and the interface that declares a
method. -/
structure Sig where
  name : String
  params : List Ty
  ret : Ty
  generics : List String
  owner : Option IfaceRef := none
  deriving Inhabited

namespace Sig

/-- The function type of a signature. -/
def toTy (s : Sig) : Ty := .fn s.name s.params s.ret s.generics s.owner

end Sig

namespace Ty

/-- The signature of a function type. -/
def sig? : Ty → Option Sig
  | .fn n ps r gs o => some ⟨n, ps, r, gs, o⟩
  | _ => none

/-- The signature of a constructor, which names no interface. -/
def ctorSig? : Ty → Option Sig
  | .ctor _ n ps r gs => some ⟨n, ps, r, gs, none⟩
  | _ => none

@[simp] theorem sig?_toTy (s : Sig) : s.toTy.sig? = some s := rfl

/-- Whether a type is the generic of exactly this name. -/
def isGenericNamed (x : String) : Ty → Bool
  | .generic n => n == x
  | _ => false

/-- Whether a type is a generic of any name. -/
def isGeneric : Ty → Bool
  | .generic _ => true
  | _ => false

/-- The declared name of a generic: a fresh copy `T#3` was made from `T`. -/
def declaredName (n : String) : String :=
  String.ofList (n.toList.takeWhile (· != '#'))

end Ty

/-- How generics and interfaces are written; every other type is written one way. -/
structure Spelling where
  generic : String → String
  iface : String → String

namespace Spelling

/-- The programmer's spelling: a generic by its declared name, an interface by its name. -/
def display : Spelling := ⟨Ty.declaredName, id⟩

/-- The tagged spelling: `?` and the full name of a generic, `%` and the name of an
interface. -/
def tagged : Spelling := ⟨("?" ++ ·), ("%" ++ ·)⟩

end Spelling

namespace Ty

mutual

/-- Writes the text of a type after `acc`: `H<A, B>` for an application, `fn(A, B): R` for a
function, the name for every declared type. -/
def spellOnto (sp : Spelling) : Ty → String → String
  | .basic n, acc => acc ++ n
  | .generic n, acc => acc ++ sp.generic n
  | .app h as, acc => spellListOnto sp as (spellOnto sp h acc ++ "<") ++ ">"
  | .fn _ ps r _ _, acc => spellOnto sp r (spellListOnto sp ps (acc ++ "fn(") ++ "): ")
  | .iface r, acc => acc ++ sp.iface r.name
  | .enum r, acc => acc ++ r.name
  | .data r, acc => acc ++ r.name
  | .ctor _ n _ _ _, acc => acc ++ n

/-- Writes types separated by a comma and a blank after `acc`. -/
def spellListOnto (sp : Spelling) : List Ty → String → String
  | [], acc => acc
  | [t], acc => spellOnto sp t acc
  | t :: u :: ts, acc => spellListOnto sp (u :: ts) (spellOnto sp t acc ++ ", ")

end

/-- The text of a type in a spelling. -/
def spell (sp : Spelling) (t : Ty) : String := spellOnto sp t ""

/-- A type as a programmer reads it. -/
def display (t : Ty) : String := t.spell .display

/-- A type with generics written `?T` and interfaces `%Show`. -/
def tagged (t : Ty) : String := t.spell .tagged

mutual

/-- Sameness of types: by name for basic types and generics, by parts for applications and
for functions (their type parameters and interface aside), by declaration otherwise. -/
def same : Ty → Ty → Bool
  | .basic a, .basic b => a == b
  | .generic a, .generic b => a == b
  | .app h as, .app h' bs => same h h' && sameList as bs
  | .fn n ps r _ _, .fn n' ps' r' _ _ => n == n' && sameList ps ps' && same r r'
  | .iface a, .iface b => a.id == b.id
  | .enum a, .enum b => a.id == b.id
  | .data a, .data b => a.id == b.id
  | .ctor a _ _ _ _, .ctor b _ _ _ _ => a == b
  | _, _ => false

/-- Sameness of two lists of types, member by member. -/
def sameList : List Ty → List Ty → Bool
  | [], [] => true
  | a :: as, b :: bs => same a b && sameList as bs
  | _, _ => false

end

/-- The name that keys interface implementations and completes a dispatched method's name:
that of a basic type, an enum or a type constructor, or of the head of an application. Other
types have none. -/
def dispatchKey : Ty → Option String
  | .basic n => some n
  | .enum r => some r.name
  | .data r => some r.name
  | .app h _ => dispatchKey h
  | _ => none

/-- Whether two heads of applications denote one declaration. -/
def sameDecl : Ty → Ty → Bool
  | .enum a, .enum b => a.id == b.id
  | .data a, .data b => a.id == b.id
  | .iface a, .iface b => a.id == b.id
  | .basic a, .basic b => a == b
  | _, _ => false

mutual

/-- Replaces the generic `x` by `r` inside applications and function types. -/
def subst (x : String) (r : Ty) : Ty → Ty
  | .generic n => if n == x then r else .generic n
  | .app h as => .app (subst x r h) (substList x r as)
  | .fn n ps ret gs o => .fn n (substList x r ps) (subst x r ret) gs o
  | t => t

/-- `subst` on every member of a list. -/
def substList (x : String) (r : Ty) : List Ty → List Ty
  | [] => []
  | t :: ts => subst x r t :: substList x r ts

end

theorem substList_eq_map (x : String) (r : Ty) (ts : List Ty) :
    substList x r ts = ts.map (subst x r) := by
  induction ts with
  | nil => simp [substList]
  | cons t ts ih => simp [substList, ih]

mutual

/-- The numbers of the interfaces a type holds on to: those it names, also inside
applications, function types and constructors. A method does not hold the interface that
declares it. -/
def ifaceIds : Ty → List Nat
  | .iface r => [r.id]
  | .app h as => ifaceIds h ++ ifaceIdsList as
  | .fn _ ps r _ _ => ifaceIdsList ps ++ ifaceIds r
  | .ctor _ _ ps r _ => ifaceIdsList ps ++ ifaceIds r
  | _ => []

/-- `ifaceIds` of every member of a list, one after another. -/
def ifaceIdsList : List Ty → List Nat
  | [] => []
  | t :: ts => ifaceIds t ++ ifaceIdsList ts

end

mutual

/-- Equality of types, part by part. -/
def beq : Ty → Ty → Bool
  | .basic a, .basic b => decide (a = b)
  | .generic a, .generic b => decide (a = b)
  | .app h as, .app h' bs => beq h h' && beqList as bs
  | .fn n ps r gs o, .fn n' ps' r' gs' o' =>
    decide (n = n') && beqList ps ps' && beq r r' && decide (gs = gs') && decide (o = o')
  | .iface a, .iface b => decide (a = b)
  | .enum a, .enum b => decide (a = b)
  | .data a, .data b => decide (a = b)
  | .ctor i n ps r gs, .ctor i' n' ps' r' gs' =>
    decide (i = i') && decide (n = n') && beqList ps ps' && beq r r' && decide (gs = gs')
  | _, _ => false

/-- `beq` member by member. -/
def beqList : List Ty → List Ty → Bool
  | [], [] => true
  | a :: as, b :: bs => beq a b && beqList as bs
  | _, _ => false

end

mutual

theorem beq_self : (a : Ty) → beq a a = true
  | .basic _ | .generic _ | .iface _ | .enum _ | .data _ => by simp [beq]
  | .app h as => by simp [beq, beq_self h, beqList_self as]
  | .fn _ ps r _ _ | .ctor _ _ ps r _ => by simp [beq, beq_self r, beqList_self ps]

theorem beqList_self : (as : List Ty) → beqList as as = true
  | [] => rfl
  | a :: as => by simp [beqList, beq_self a, beqList_self as]

end

mutual

theorem eq_of_beq : (a b : Ty) → beq a b = true → a = b
  | .basic _, b, h | .generic _, b, h | .iface _, b, h | .enum _, b, h | .data _, b, h => by
    cases b <;> simp_all [beq]
  | .app hd as, b, h => by
    cases b with
    | app hd' bs =>
      simp only [beq, Bool.and_eq_true] at h
      rw [eq_of_beq hd hd' h.1, eq_of_beqList as bs h.2]
    | _ => simp [beq] at h
  | .fn _ ps r _ _, b, h => by
    cases b with
    | fn n' ps' r' gs' o' =>
      simp only [beq, Bool.and_eq_true, decide_eq_true_eq] at h
      obtain ⟨⟨⟨⟨rfl, hps⟩, hr⟩, rfl⟩, rfl⟩ := h
      rw [eq_of_beqList ps ps' hps, eq_of_beq r r' hr]
    | _ => simp [beq] at h
  | .ctor _ _ ps r _, b, h => by
    cases b with
    | ctor i' n' ps' r' gs' =>
      simp only [beq, Bool.and_eq_true, decide_eq_true_eq] at h
      obtain ⟨⟨⟨⟨rfl, rfl⟩, hps⟩, hr⟩, rfl⟩ := h
      rw [eq_of_beqList ps ps' hps, eq_of_beq r r' hr]
    | _ => simp [beq] at h

theorem eq_of_beqList : (as bs : List Ty) → beqList as bs = true → as = bs
  | [], [], _ => rfl
  | a :: as, b :: bs, h => by
    simp only [beqList, Bool.and_eq_true] at h
    rw [eq_of_beq a b h.1, eq_of_beqList as bs h.2]
  | [], _ :: _, h | _ :: _, [], h => by simp [beqList] at h

end

/-- Types are compared part by part, so that facts about given types can be decided. -/
instance : DecidableEq Ty := fun a b =>
  if h : beq a b = true then isTrue (eq_of_beq a b h)
  else isFalse fun e => h (e ▸ beq_self a)

end Ty

end Verve
