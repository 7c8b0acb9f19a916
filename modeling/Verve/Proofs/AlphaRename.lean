import Verve.Proofs.RenameCheck

/-!
# Renaming a generic parameter

Generics, parameters, `let` names and pattern names share one namespace: a generic `G` in a
function's annotations is resolved through whatever `G` is bound to where it is read. So a
function may change its meaning when its generic takes another name. In
`fn f<g>(x: Int): Int { g … }` the `g` of the body finds the generic, while after renaming the
generic to `h` it finds nothing (`generic_shares_names_with_values`). Likewise a new name that
is the symbol of an implementation, such as `showInt`, hides that implementation from calls in
the function.

What does hold: swapping `G` with a name `G'` throughout a declaration's signature, when
neither name stands for anything else in the program, changes the outcome of checking by that
swap alone (`check_swap_generic`). Here nothing else means no name the nodes look up or bind,
no name of the root scope, no generic of another declaration, no name of a built-in type or of
the list's parameter `T`, and no name that begins with the name of a method. The swap moves a
fresh copy `G#k` with `G` (`Placeholder.swap`), so it is a `Renaming`, and the result is
`check_rename` for it.

The conditions are not there for the proof's sake. Checked in full on small programs, a swap
onto the generic of another declaration (`swap_generic_of_another_declaration`), onto the
symbol of an implementation (`swap_generic_onto_implementation_symbol`) or onto the list's
parameter `T` (`swap_generic_with_list_parameter`) changes the outcome by more than the swap.
-/

namespace Verve

namespace Placeholder

/-- The first part of a name, swapped: `G` becomes `G'` and `G'` becomes `G`. -/
def swapPart (G G' : String) (s : List Char) : List Char :=
  if s = G.toList then G'.toList else if s = G'.toList then G.toList else s

/-- A name with `G` and `G'` swapped in the part before its first `#`: the copy `G#3` becomes
`G'#3`, and every other name stays. -/
def swap (G G' : String) (x : String) : String :=
  String.ofList (['#'].intercalate ((parts x).modifyHead (swapPart G G')))

variable {G G' : String}

theorem swapPart_swapPart (s : List Char) : swapPart G G' (swapPart G G' s) = s := by
  unfold swapPart
  by_cases h : s = G.toList
  · subst h
    by_cases h' : G'.toList = G.toList
    · simp [h']
    · simp [h']
  · by_cases h' : s = G'.toList
    · subst h'
      simp [h]
    · simp [h, h']

theorem not_mem_swapPart (hG : Ty.PlainName G) (hG' : Ty.PlainName G') {s : List Char}
    (hs : '#' ∉ s) : '#' ∉ swapPart G G' s := by
  unfold swapPart
  split
  · exact hG'
  · split
    · exact hG
    · exact hs

/-- The parts of a swapped name are the parts, the first swapped. -/
theorem parts_swap (hG : Ty.PlainName G) (hG' : Ty.PlainName G') (x : String) :
    parts (swap G G' x) = (parts x).modifyHead (swapPart G G') := by
  unfold swap
  simp only [parts, String.toList_ofList]
  obtain ⟨first, rest, hp⟩ := List.exists_cons_of_ne_nil (parts_ne_nil x)
  rw [parts] at hp
  rw [hp, List.modifyHead_cons]
  refine List.splitOn_intercalate _ (fun l hl => ?_) (List.cons_ne_nil _ _)
  rcases List.mem_cons.1 hl with rfl | hl
  · exact not_mem_swapPart hG hG' (not_mem_of_mem_splitOn (hp ▸ List.mem_cons_self))
  · exact not_mem_of_mem_splitOn (hp ▸ List.mem_cons_of_mem _ hl)

/-- **Swapping twice gives the name back.** -/
theorem swap_swap (hG : Ty.PlainName G) (hG' : Ty.PlainName G') (x : String) :
    swap G G' (swap G G' x) = x := by
  apply eq_of_parts
  rw [parts_swap hG hG', parts_swap hG hG', List.modifyHead_modifyHead]
  obtain ⟨first, rest, hp⟩ := List.exists_cons_of_ne_nil (parts_ne_nil x)
  rw [hp, List.modifyHead_cons, Function.comp_apply, swapPart_swapPart]

theorem swap_injective (hG : Ty.PlainName G) (hG' : Ty.PlainName G') :
    Function.Injective (swap G G') :=
  Function.Involutive.injective (swap_swap hG hG')

/-- **A fresh copy is swapped with the name it was made from.** -/
theorem swap_fresh (hG : Ty.PlainName G) (hG' : Ty.PlainName G') (g k : String) :
    swap G G' (g ++ "#" ++ k) = swap G G' g ++ "#" ++ k := by
  -- a name followed by `#` and more has the name's parts, then those of the rest
  have happ : ∀ y : String, parts (y ++ "#" ++ k) = parts y ++ parts k := fun y => by
    simp only [parts, String.toList_append, List.append_assoc]
    exact List.splitOn_append_cons_self _ _
  apply eq_of_parts
  rw [parts_swap hG hG', happ, happ, parts_swap hG hG']
  obtain ⟨first, rest, hp⟩ := List.exists_cons_of_ne_nil (parts_ne_nil g)
  rw [hp, List.cons_append, List.modifyHead_cons, List.modifyHead_cons, List.cons_append]

/-- A name whose first part is neither `G` nor `G'` is kept. -/
theorem swap_of_head {x : String} {first : List Char} {rest : List (List Char)}
    (hp : parts x = first :: rest) (hG : first ≠ G.toList) (hG' : first ≠ G'.toList) :
    swap G G' x = x := by
  unfold swap
  rw [hp, List.modifyHead_cons, swapPart, if_neg hG, if_neg hG', ← hp, parts,
    List.intercalate_splitOn, String.ofList_toList]

theorem swap_left (hG : Ty.PlainName G) : swap G G' G = G' := by
  unfold swap
  rw [parts, List.splitOn_eq_singleton hG, List.modifyHead_cons, swapPart, if_pos rfl]
  simp

/-- Splitting a name that starts with a part without `#` at each `#`: that part begins the
first piece. -/
theorem splitOn_append_of_not_mem {xs : List Char} (h : '#' ∉ xs) (ys : List Char) :
    (xs ++ ys).splitOn '#' = (ys.splitOn '#').modifyHead (xs ++ ·) := by
  induction xs with
  | nil => exact (congrFun List.modifyHead_id _).symm
  | cons c xs ih =>
    have hc : (c == '#') = false := by
      simpa using fun e : c = '#' => h (e ▸ List.mem_cons_self)
    rw [List.cons_append, List.splitOn_cons_eq_if_modifyHead, hc, if_neg (by simp),
      ih (fun hx => h (List.mem_cons_of_mem _ hx)), List.modifyHead_modifyHead]
    rfl

/-- **A name that begins with a name that is no beginning of `G` or `G'` is kept.** Such are
the symbols a call of a method dispatches to. -/
theorem swap_append {n : String} (hn : '#' ∉ n.toList) (hG : ¬n.toList <+: G.toList)
    (hG' : ¬n.toList <+: G'.toList) (k : String) : swap G G' (n ++ k) = n ++ k := by
  obtain ⟨first, rest, hp⟩ := List.exists_cons_of_ne_nil (parts_ne_nil k)
  have hparts : parts (n ++ k) = (n.toList ++ first) :: rest := by
    rw [parts, String.toList_append, splitOn_append_of_not_mem hn, ← parts, hp,
      List.modifyHead_cons]
  refine swap_of_head hparts (fun h => hG ?_) (fun h => hG' ?_)
  · exact h ▸ List.prefix_append _ _
  · exact h ▸ List.prefix_append _ _

/-- `x` is a name without `#` other than `G` and `G'`: the swap keeps it. -/
def Apart (G G' x : String) : Prop := Ty.PlainName x ∧ x ≠ G ∧ x ≠ G'

instance (G G' x : String) : Decidable (Apart G G' x) := inferInstanceAs (Decidable (_ ∧ _))

theorem swap_of_apart {x : String} (h : Apart G G' x) : swap G G' x = x := by
  refine @swap_of_head G G' x x.toList [] ?_ ?_ ?_
  · rw [parts, List.splitOn_eq_singleton h.1]
  · exact fun e => h.2.1 (String.toList_injective e)
  · exact fun e => h.2.2 (String.toList_injective e)

/-- `n` is a name without `#` that begins neither `G` nor `G'`: the swap keeps every symbol
`n ++ k` that a method named `n` dispatches to. -/
def Clear (G G' n : String) : Prop :=
  Ty.PlainName n ∧ ¬n.toList <+: G.toList ∧ ¬n.toList <+: G'.toList

instance (G G' n : String) : Decidable (Clear G G' n) := inferInstanceAs (Decidable (_ ∧ _))

theorem swap_append_of_clear {n : String} (h : Clear G G' n) (k : String) :
    swap G G' (n ++ k) = n ++ k :=
  swap_append h.1 h.2.1 h.2.2 k

/-- **In a type that does not name `G'`, the swap renames `G` to `G'`.** -/
theorem rename_swap_of_not_mem (hG : Ty.PlainName G) {t : Ty}
    (hplain : ∀ x ∈ t.genericNames, Ty.PlainName x) (hG' : G' ∉ t.genericNames) :
    t.rename (swap G G') = t.rename fun x => if x = G then G' else x := by
  refine Ty.rename_congr t fun x hx => ?_
  by_cases hxG : x = G
  · subst hxG
    rw [if_pos rfl, swap_left hG]
  · rw [if_neg hxG]
    exact swap_of_apart ⟨hplain x hx, hxG, fun e => hG' (e ▸ hx)⟩

/-- **Swapping renames one root declaration and keeps the others**, when no other binding's
name or generic is `G` or `G'`. -/
theorem renameBinds_swap {pre post : List (String × Ty)} {f : String} {t : Ty}
    (hf : Apart G G' f) (hkeys : ∀ b ∈ pre ++ post, Apart G G' b.1)
    (hgenerics : ∀ b ∈ pre ++ post, ∀ x ∈ b.2.genericNames, Apart G G' x) :
    renameBinds (swap G G') (pre ++ (f, t) :: post) = pre ++ (f, t.rename (swap G G')) :: post := by
  have hkeep : ∀ b ∈ pre ++ post, (swap G G' b.1, b.2.rename (swap G G')) = b := fun b hb => by
    rw [swap_of_apart (hkeys b hb),
      Ty.rename_eq_self _ fun x hx => swap_of_apart (hgenerics b hb x hx)]
  simp only [renameBinds, List.map_append, List.map_cons, swap_of_apart hf]
  rw [List.map_congr_left fun b hb => hkeep b (List.mem_append_left _ hb),
    List.map_congr_left fun b hb => hkeep b (List.mem_append_right _ hb), List.map_id',
    List.map_id']

end Placeholder

/-- Names to swap: neither holds a `#`, as no name read from a program's text does, and
neither is a root name of a built-in type or `T`, the name the list type's parameter falls
back to. -/
structure Swappable (G G' : String) : Prop where
  plain : Ty.PlainName G
  plain' : Ty.PlainName G'
  reserved : ∀ x ∈ ["int", "float", "string", "void", "list", "T"], Placeholder.Apart G G' x

/-- Swapping two names, as a renaming that checking commutes with. -/
def Swappable.renaming {G G' : String} (h : Swappable G G') : Renaming where
  name := Placeholder.swap G G'
  injective := Placeholder.swap_injective h.plain h.plain'
  fresh := Placeholder.swap_fresh h.plain h.plain'
  list := Placeholder.swap_of_apart (h.reserved "T" (by simp))

@[simp]
theorem Swappable.renaming_name {G G' : String} (h : Swappable G G') :
    h.renaming.name = Placeholder.swap G G' := rfl

/-- **Swapping a generic of one declaration.** Take a declaration `(f, t)` of the root scope
and swap `G` with `G'` throughout its type `t`: its generics and every annotation that names
them. When neither name stands for anything else in the program (no root name, no generic of
another declaration, no name that the nodes look up or bind, and no name a method dispatches
to), the program checks to the outcome it had, with `G` and `G'` swapped in every type: the
same fault at the same position, or the swapped root type and tree. When `t` does not name
`G'`, the swap is the renaming of `G` to `G'` (`Placeholder.rename_swap_of_not_mem`). -/
theorem check_swap_generic {G G' : String} (hG : Swappable G G') (prog : Program)
    (maxDepth : Nat) {pre post : List (String × Ty)} {f : String} {t : Ty}
    (henv : prog.decls.env = pre ++ (f, t) :: post)
    (hroot : ∀ b ∈ prog.decls.env, Placeholder.Apart G G' b.1)
    (hothers : ∀ b ∈ pre ++ post, ∀ x ∈ b.2.genericNames, Placeholder.Apart G G' x)
    (hnames : prog.body.EveryName (Placeholder.Apart G G'))
    (hmethods : ∀ b ∈ prog.decls.env, b.2.Methods (Placeholder.Clear G G')) :
    check ⟨prog.body,
        { prog.decls with env := pre ++ (f, t.rename (Placeholder.swap G G')) :: post }⟩
        maxDepth =
      hG.renaming.checked (check prog maxDepth) := by
  -- the other bindings are those of the root scope without the declaration
  have hmem : ∀ b ∈ pre ++ post, b ∈ prog.decls.env := fun b hb => by
    rw [henv]
    exact ((List.sublist_cons_self (f, t) post).append_left pre).subset hb
  -- the swap renames the declaration's type and leaves every other root binding as it is
  have hdecls : hG.renaming.decls prog.decls =
      { prog.decls with env := pre ++ (f, t.rename (Placeholder.swap G G')) :: post } := by
    rw [Renaming.decls, Swappable.renaming_name, henv,
      Placeholder.renameBinds_swap (hroot (f, t) (by simp [henv]))
        (fun b hb => hroot b (hmem b hb)) hothers]
  rw [← hdecls]
  refine check_rename hG.renaming prog maxDepth ?_ ?_ ?_
  · exact fun x hx => Placeholder.swap_of_apart (hG.reserved x (List.mem_append_left ["T"] hx))
  · exact hnames.mono fun x hx => Placeholder.swap_of_apart hx
  · exact fun b hb => (hmethods b hb).mono fun n hn => Placeholder.swap_append_of_clear hn

/-- The type `fn<a>(a): a` that `fn id<a>(x: a): a { x }` declares for `id`. -/
def identityTy : Ty := .fn "id" [.generic "a"] (.generic "a") ["a"] none

/-- `fn id<a>(x: a): a { x }` as read: the root scope declares `id` in front of the built-ins. -/
def identityProgram : Program :=
  ⟨.mk (.block [.mk (.func "id" [⟨"x", ⟨9, 10⟩⟩]
      (.mk (.block [.mk (.ident "x") ⟨20, 21⟩ none]) ⟨18, 23⟩ none)) ⟨0, 23⟩ none]) ⟨0, 23⟩ none,
    { Decls.initial with env := ("id", identityTy) :: Decls.initial.env }⟩

/-- Swapping `a` with `b` in `fn id<a>(x: a): a { x }` swaps them in its outcome. -/
theorem check_swap_generic_identity :
    ∃ h : Swappable "a" "b",
      check ⟨identityProgram.body, { identityProgram.decls with
          env := [] ++ ("id", identityTy.rename (Placeholder.swap "a" "b")) :: Decls.initial.env }⟩
          8 =
        h.renaming.checked (check identityProgram 8) := by
  have h : Swappable "a" "b" := ⟨by decide, by decide, by decide⟩
  refine ⟨h, check_swap_generic h identityProgram 8
    (show identityProgram.decls.env = [] ++ ("id", identityTy) :: Decls.initial.env from rfl)
    ?_ ?_ ?_ ?_⟩
  · decide +kernel
  · decide +kernel
  · simp [identityProgram, Node.EveryName, Node.FormEveryName, Node.ListEveryName]
    decide
  · simp [identityProgram, identityTy, Decls.initial, Ty.Methods, Ty.MethodsList]

/-- **A generic shares its names with values.** In `fn f<g>(x: Int): Int { g match 1 { } }`
the `g` of the body is the generic, and checking goes on to fail at the empty `match`. With the
generic renamed to `h`, a name the program does not use, the `g` finds nothing. -/
theorem generic_shares_names_with_values :
    (match checkSource "fn f<g>(x: Int): Int \x7b g\nmatch 1 \x7b \x7d \x7d" 4096 with
      | .error (.check, e) => e.fault.name == "EmptyMatch" && e.pos == 25
      | _ => false) = true ∧
    (match checkSource "fn f<h>(x: Int): Int \x7b g\nmatch 1 \x7b \x7d \x7d" 4096 with
      | .error (.check, e) => e.fault.name == "UnknownTypeError" && e.pos == 23
      | _ => false) = true := by
  constructor <;> decide +kernel

/-- The program read from a source, or the empty program when the source does not read. -/
def sourceProgram (src : String) : Program :=
  match (Token.scan src).bind (Parse.program ·) with
  | .ok p => p
  | .error _ => default

/-- `fn k<h>(y: h): h { y }`, then `fn f<g>(x: g): g { x }`, then `f(1)`. -/
def otherGenericSource : String :=
  "fn k<h>(y: h): h \x7b y \x7d\nfn f<g>(x: g): g \x7b x \x7d\nf(1)"

/-- **A generic of another declaration is no name to swap in.** In `otherGenericSource`,
swapping `g` with `h` in `f` meets every condition of `check_swap_generic` but one: `h` is the
generic of `k`. The check of the swapped program lists `k` as `fn(h): h`, while the first check
with `g` and `h` swapped lists it as `fn(g): g`. -/
theorem swap_generic_of_another_declaration :
    ∃ (h : Swappable "g" "h") (t : Ty) (post : List (String × Ty)),
      (sourceProgram otherGenericSource).decls.env = [] ++ ("f", t) :: post ∧
      (∀ b ∈ (sourceProgram otherGenericSource).decls.env, Placeholder.Apart "g" "h" b.1) ∧
      (sourceProgram otherGenericSource).body.EveryName (Placeholder.Apart "g" "h") ∧
      (∀ b ∈ (sourceProgram otherGenericSource).decls.env,
        b.2.Methods (Placeholder.Clear "g" "h")) ∧
      ¬ (∀ b ∈ [] ++ post, ∀ x ∈ b.2.genericNames, Placeholder.Apart "g" "h" x) ∧
      check ⟨(sourceProgram otherGenericSource).body, { (sourceProgram otherGenericSource).decls with
          env := [] ++ ("f", t.rename (Placeholder.swap "g" "h")) :: post }⟩ 4096 ≠
        h.renaming.checked (check (sourceProgram otherGenericSource) 4096) := by
  refine ⟨⟨by decide, by decide, by decide⟩,
    ((sourceProgram otherGenericSource).decls.env.headD default).2,
    (sourceProgram otherGenericSource).decls.env.tail, ?_, ?_, ?_, ?_, ?_, ?_⟩
  · decide +kernel
  · decide +kernel
  · decide +kernel
  · decide +kernel
  · decide +kernel
  · -- the two checks list their types differently
    intro e
    have := congrArg (fun r => r.toOption.map (·.2.listing)) e
    revert this
    decide +kernel

/-- `interface Show<T> { fn show(x: T): String }`, then `implementation Show<Int> { … }`, then
`fn f<g>(x: g): String { show(5) }` and `f(1)`. -/
def showGenericSource : String :=
  "interface Show<T> \x7b fn show(x: T): String \x7d\nimplementation Show<Int> \x7b fn show(x) \x7b \"i\" \x7d \x7d\nfn f<g>(x: g): String \x7b show(5) \x7d\nf(1)"

/-- **A name that a method dispatches to is no name to swap in.** In `showGenericSource` the
call `show(5)` in `f` dispatches to `showInt`. Swapped for `g`, `showInt` is the generic of `f`
in its body and hides the implementation: the call dispatches nowhere, and the check is no
longer the first with the names swapped. The method `show` begins `showInt`, against
`check_swap_generic`'s condition on methods; `showInt` is also a name of the root scope and the
name of the implementation's function in the tree. Every generic of another declaration stays
apart. -/
theorem swap_generic_onto_implementation_symbol :
    ∃ (h : Swappable "g" "showInt") (t : Ty) (post : List (String × Ty)),
      (sourceProgram showGenericSource).decls.env = [] ++ ("f", t) :: post ∧
      (∀ b ∈ [] ++ post, ∀ x ∈ b.2.genericNames, Placeholder.Apart "g" "showInt" x) ∧
      ¬ (∀ b ∈ (sourceProgram showGenericSource).decls.env,
        b.2.Methods (Placeholder.Clear "g" "showInt")) ∧
      check ⟨(sourceProgram showGenericSource).body, { (sourceProgram showGenericSource).decls with
          env := [] ++ ("f", t.rename (Placeholder.swap "g" "showInt")) :: post }⟩ 4096 ≠
        h.renaming.checked (check (sourceProgram showGenericSource) 4096) := by
  refine ⟨⟨by decide, by decide, by decide⟩,
    ((sourceProgram showGenericSource).decls.env.headD default).2,
    (sourceProgram showGenericSource).decls.env.tail, ?_, ?_, ?_, ?_⟩
  · decide +kernel
  · decide +kernel
  · decide +kernel
  · -- the first check lists the dispatch of `show(5)`, the second does not
    intro e
    have := congrArg (fun r => r.toOption.map (·.2.listing)) e
    revert this
    decide +kernel

/-- `fn f<g>(x: g): List<g> { [] }`, then `f(1)`. -/
def listGenericSource : String := "fn f<g>(x: g): List<g> \x7b [] \x7d\nf(1)"

/-- **The list's parameter is no name to swap in.** The empty list in `listGenericSource` is a
list of the list's own parameter `T`, so `f` is listed as `fn(g): List<T>`. Swapped with `T`,
`f` is listed as `fn(T): List<T>`, not as the swap `fn(T): List<g>` of the first. `T` is the
name `check_swap_generic` reserves for the list, and the generic of the built-in
constructors. -/
theorem swap_generic_with_list_parameter :
    ¬ Placeholder.Apart "g" "T" "T" ∧
      ∃ (t : Ty) (post : List (String × Ty)),
        (sourceProgram listGenericSource).decls.env = [] ++ ("f", t) :: post ∧
        (check (sourceProgram listGenericSource) 4096).toOption.map (·.2.listing) =
          some ["f: fn(g): List<T>"] ∧
        (check ⟨(sourceProgram listGenericSource).body, { (sourceProgram listGenericSource).decls with
            env := [] ++ ("f", t.rename (Placeholder.swap "g" "T")) :: post }⟩ 4096).toOption.map
              (·.2.listing) = some ["f: fn(T): List<T>"] := by
  refine ⟨by decide, ((sourceProgram listGenericSource).decls.env.headD default).2,
    (sourceProgram listGenericSource).decls.env.tail, ?_, ?_, ?_⟩
  · decide +kernel
  · decide +kernel
  · decide +kernel

end Verve
