import Verve.Proofs.Annotated
import Verve.Proofs.Declarations

/-!
# The built-in types a program sees

Checking takes its built-in types from the root scope of the declarations, under the keys
`int`, `float`, `string`, `void` and `list` (`Builtins.ofDecls`). The keys are names like any
other. Every declaration that reading makes keeps the root bindings and puts at most one more
in front of them (`Decls.Step.env_suffix`), so reading a program only ever adds root bindings
in front of those it starts from (`Parse.program_adds`): a function, an extern, an interface
method, a constructor or an implemented method (named by the method and the key of the type)
binds its name there. So a program that declares one of these names replaces the built-in type
under it, and every literal, empty block and list literal of the program takes the declared
type (`literals_follow_root_bindings`).
-/

namespace Verve

namespace Decls

/-- **A declaration only adds root bindings.** Binding a name puts it in front of the others;
every other declaration leaves the root scope as it is. -/
theorem Step.env_suffix {d d' : Decls} (h : Step d d') : d.env <:+ d'.env := by
  cases h with
  | bind x t => exact List.suffix_cons _ _
  | iface | enum | impl | fresh => exact List.suffix_refl _

/-- Declarations only add root bindings. -/
theorem env_suffix_of_steps {d d' : Decls} (h : Relation.ReflTransGen Step d d') :
    d.env <:+ d'.env := by
  induction h with
  | refl => exact List.suffix_refl _
  | tail _ hstep ih => exact ih.trans hstep.env_suffix

/-- The root bindings of the initial table, newest first. -/
theorem initial_env : initial.env =
    [("list", .enum listRef),
      ("Cons",
        .ctor 2 "Cons" [.generic "T", .app (.enum listRef) [.generic "T"]] (.enum listRef) ["T"]),
      ("Nil", .ctor 1 "Nil" [] (.enum listRef) ["T"]), ("string", .basic "String"),
      ("void", .basic "Void"), ("char", .basic "Char"), ("float", .basic "Float"),
      ("int", .basic "Int")] := by
  simp only [initial, List.foldl_cons, List.foldl_nil, List.cons.injEq, Prod.mk.injEq, and_true,
    true_and]
  -- the keys are the lower-case names of the basic types
  refine ⟨?_, ?_, ?_, ?_, ?_⟩ <;> decide +kernel

end Decls

namespace Parse

/-- **Reading a program only adds root bindings.** The program read from a table `d` has the
root bindings of `d`, with those its declarations made in front of them. -/
theorem program_adds {toks : Array Token} {d : Decls} {prog : Program}
    (h : program toks d = .ok prog) : ∃ added, prog.decls.env = added ++ d.env := by
  obtain ⟨added, hadded⟩ := Decls.env_suffix_of_steps (program_records h)
  exact ⟨added, hadded.symm⟩

end Parse

namespace Builtins

/-- The built-in types of a root scope that has `added` in front of the bindings of the
initial table: under each key the newest binding `added` makes, and the built-in type when it
makes none. -/
def ofAdded (added : List (String × Ty)) : Builtins where
  int := (added.lookup "int").getD (.basic "Int")
  float := (added.lookup "float").getD (.basic "Float")
  string := (added.lookup "string").getD (.basic "String")
  void := (added.lookup "void").getD (.basic "Void")
  list := (added.lookup "list").getD (.enum Decls.listRef)

/-- The built-in types read from root bindings added in front of the initial ones. -/
theorem ofDecls_eq_ofAdded {d : Decls} {added : List (String × Ty)}
    (h : d.env = added ++ Decls.initial.env) : ofDecls d = ofAdded added := by
  simp only [ofDecls, ofAdded, Decls.lookup, h, List.lookup_append, Option.getD_or,
    Decls.initial_env]
  rfl

end Builtins

/-- **The built-in types follow the root bindings.** Take a program read from tokens and
checked. Its root bindings are those of the initial table with the ones its declarations
added in front, and in the checked tree every node carries a type: a literal, an empty block
and a list literal carry the built-in type that `Builtins.ofAdded` takes from the declarations,
the newest declaration named `int`, `float`, `string`, `void` or `list` when there is one,
else `Int`, `Float`, `String`, `Void` or `List`. -/
theorem literals_follow_root_bindings {toks : Array Token} {prog : Program} {maxDepth : Nat}
    {t : Ty} {root : Node} (hp : Parse.program toks = .ok prog)
    (hc : check prog maxDepth = .ok (t, root)) :
    ∃ added, prog.decls.env = added ++ Decls.initial.env ∧
      ∀ n ∈ root.preorder, n.Typed (Builtins.ofAdded added) := by
  obtain ⟨added, hadded⟩ := Parse.program_adds hp
  refine ⟨added, hadded, fun n hn => ?_⟩
  rw [← Builtins.ofDecls_eq_ofAdded hadded]
  exact Node.all_of_mem_preorder (check_checked hc).2 hn

/-- The tokens of `extern fn string(): Int;` followed by the string literal `"a"`. -/
def externStringTokens : Array Token :=
  #[⟨.kwExtern, "extern", ⟨0, 6⟩⟩, ⟨.kwFn, "fn", ⟨7, 9⟩⟩, ⟨.identifier, "string", ⟨10, 16⟩⟩,
    ⟨.openParen, "(", ⟨16, 17⟩⟩, ⟨.closeParen, ")", ⟨17, 18⟩⟩, ⟨.colon, ":", ⟨18, 19⟩⟩,
    ⟨.identifier, "Int", ⟨20, 23⟩⟩, ⟨.semicolon, ";", ⟨23, 24⟩⟩, ⟨.string, "a", ⟨25, 28⟩⟩,
    ⟨.eof, "EOF", ⟨28, 28⟩⟩]

/-- The type of the extern `string`. -/
def stringFn : Ty := .fn "string" [] (.basic "Int") [] none

/-- The program read from `externStringTokens`: the literal, and `string` bound in front of
the initial table. -/
def externStringProgram : Program :=
  ⟨.mk (.block [.mk (.str "a") ⟨25, 28⟩ none]) ⟨0, 28⟩ none, Decls.initial.set "string" stringFn⟩

/-- After `extern fn string(): Int;` the string literal `"a"` has the type `fn(): Int` of the
extern, not `String`. -/
theorem literals_follow_root_bindings_externString :
    Parse.program externStringTokens = .ok externStringProgram ∧
      check externStringProgram 8 = .ok (stringFn,
        .mk (.block [.mk (.str "a") ⟨25, 28⟩ (some stringFn)]) ⟨0, 28⟩ (some stringFn)) ∧
      ∃ added, externStringProgram.decls.env = added ++ Decls.initial.env ∧
        ∀ n ∈ (Node.mk (.block [.mk (.str "a") ⟨25, 28⟩ (some stringFn)]) ⟨0, 28⟩
          (some stringFn)).preorder, n.Typed (Builtins.ofAdded added) :=
  have hp : Parse.program externStringTokens = .ok externStringProgram := rfl
  have hc : check externStringProgram 8 = .ok (stringFn,
      .mk (.block [.mk (.str "a") ⟨25, 28⟩ (some stringFn)]) ⟨0, 28⟩ (some stringFn)) := rfl
  ⟨hp, hc, literals_follow_root_bindings hp hc⟩

end Verve
