import Verve.Proofs.Run

/-!
# Checking annotates the whole tree

A check that succeeds returns the program's tree with a type on every node. The nodes it
checks through `typeOf` get theirs there; the pattern of a case or of an assignment gets the
type of the values it matches from `bindPattern`, and a name on the left of an assignment
the type of the value. The type on the root is the type the check returns
(`check_annotates_every_node`).

What a node records is tied to the built-in types of the setting (`Node.Typed`): a string
literal has the built-in string type, a number the built-in `Int` or `Float` after its kind,
an empty block `Void`, and a list literal the built-in list type applied to an element type.
`Node.All P` says that `P` holds of a node and of every node inside it, which is `P` of
every node of its preorder (`Node.all_of_mem_preorder`).

`Check.Returns b m Q` says that every value `m` returns, in a setting whose built-in types
are `b`, satisfies `Q`. It composes along `bind` like `Check.Spec`, with no store invariant
to carry. The checker is proved by one mutual induction over the forms (`typeOf_checked`),
each case a chain of the `Returns` of its steps.
-/

namespace Verve

namespace Node

section All

variable (P : Node → Prop)

mutual

/-- `P` holds of a node and of every node inside it. -/
def All : Node → Prop
  | n@(.mk f _ _) => P n ∧ FormAll f

/-- `All P` of every child of a form. -/
def FormAll : Form → Prop
  | .str _ | .num _ | .ident _ | .pattern _ _ => True
  | .binary _ l r => All l ∧ All r
  | .unary _ o => All o
  | .func _ _ b => All b
  | .block xs | .list xs => ListAll xs
  | .call c as _ => All c ∧ ListAll as
  | .cond c t none => All c ∧ All t
  | .cond c t (some e) => All c ∧ All t ∧ All e
  | .matchOn v cs => All v ∧ ListAll cs
  | .case p b => All p ∧ All b
  | .letIn as b => ListAll as ∧ All b
  | .assign l v => All l ∧ All v
  | .construct _ as => ListAll as

/-- `All P` of every node of a list. -/
def ListAll : List Node → Prop
  | [] => True
  | n :: ns => All n ∧ ListAll ns

end

variable {P}

mutual

theorem all_preorderOnto : (n : Node) → n.All P → ∀ acc, (∀ m ∈ acc, P m) →
    ∀ m ∈ preorderOnto n acc, P m
  | .mk f _ _, ⟨hn, hf⟩, acc, hacc, m, hm => by
    rw [preorderOnto] at hm
    rcases List.mem_cons.1 hm with rfl | hm
    · exact hn
    · exact formAll_preorderOnto f hf acc hacc m hm
termination_by structural x => x

theorem formAll_preorderOnto : (f : Form) → FormAll P f → ∀ acc, (∀ m ∈ acc, P m) →
    ∀ m ∈ formPreorderOnto f acc, P m
  | .str _, _, _, hacc, m, hm | .num _, _, _, hacc, m, hm | .ident _, _, _, hacc, m, hm
  | .pattern _ _, _, _, hacc, m, hm => by
    rw [formPreorderOnto] at hm
    exact hacc m hm
  | .binary _ l r, ⟨hl, hr⟩, acc, hacc, m, hm => by
    rw [formPreorderOnto] at hm
    exact all_preorderOnto l hl _ (all_preorderOnto r hr acc hacc) m hm
  | .unary _ o, ho, acc, hacc, m, hm => by
    rw [formPreorderOnto] at hm
    exact all_preorderOnto o ho acc hacc m hm
  | .func _ _ b, hb, acc, hacc, m, hm => by
    rw [formPreorderOnto] at hm
    exact all_preorderOnto b hb acc hacc m hm
  | .block xs, hxs, acc, hacc, m, hm | .list xs, hxs, acc, hacc, m, hm => by
    rw [formPreorderOnto] at hm
    exact listAll_preorderOnto xs hxs acc hacc m hm
  | .call c as _, ⟨hc, has⟩, acc, hacc, m, hm => by
    rw [formPreorderOnto] at hm
    exact all_preorderOnto c hc _ (listAll_preorderOnto as has acc hacc) m hm
  | .cond c t none, ⟨hc, ht⟩, acc, hacc, m, hm => by
    rw [formPreorderOnto] at hm
    exact all_preorderOnto c hc _ (all_preorderOnto t ht acc hacc) m hm
  | .cond c t (some e), ⟨hc, ht, he⟩, acc, hacc, m, hm => by
    rw [formPreorderOnto] at hm
    exact all_preorderOnto c hc _ (all_preorderOnto t ht _ (all_preorderOnto e he acc hacc)) m hm
  | .matchOn v cs, ⟨hv, hcs⟩, acc, hacc, m, hm => by
    rw [formPreorderOnto] at hm
    exact all_preorderOnto v hv _ (listAll_preorderOnto cs hcs acc hacc) m hm
  | .case p b, ⟨hp, hb⟩, acc, hacc, m, hm => by
    rw [formPreorderOnto] at hm
    exact all_preorderOnto p hp _ (all_preorderOnto b hb acc hacc) m hm
  | .letIn as b, ⟨has, hb⟩, acc, hacc, m, hm => by
    rw [formPreorderOnto] at hm
    exact listAll_preorderOnto as has _ (all_preorderOnto b hb acc hacc) m hm
  | .assign l v, ⟨hl, hv⟩, acc, hacc, m, hm => by
    rw [formPreorderOnto] at hm
    exact all_preorderOnto l hl _ (all_preorderOnto v hv acc hacc) m hm
  | .construct _ as, has, acc, hacc, m, hm => by
    rw [formPreorderOnto] at hm
    exact listAll_preorderOnto as has acc hacc m hm
termination_by structural x => x

theorem listAll_preorderOnto : (ns : List Node) → ListAll P ns → ∀ acc, (∀ m ∈ acc, P m) →
    ∀ m ∈ listPreorderOnto ns acc, P m
  | [], _, _, hacc, m, hm => by
    rw [listPreorderOnto] at hm
    exact hacc m hm
  | n :: ns, ⟨hn, hns⟩, acc, hacc, m, hm => by
    rw [listPreorderOnto] at hm
    exact all_preorderOnto n hn _ (listAll_preorderOnto ns hns acc hacc) m hm
termination_by structural x => x

end

/-- What holds of every node of a tree holds of every node of its preorder. -/
theorem all_of_mem_preorder {n m : Node} (hn : n.All P) (hm : m ∈ n.preorder) : P m :=
  all_preorderOnto n hn [] (by simp) m hm

end All

/-- What checking records at a node of this form besides a type: a literal has the built-in
type of its kind, an empty block `Void`, and a list literal the built-in list type applied to
an element type. -/
def FormTyped (b : Builtins) : Form → Ty → Prop
  | .str _, τ => τ = b.string
  | .num l, τ => τ = if l.isFloat then b.float else b.int
  | .block [], τ => τ = b.void
  | .list _, τ => ∃ e, τ = b.listOf e
  | _, _ => True

/-- A node carries a type, the built-in one where its form has one. -/
def Typed (b : Builtins) (n : Node) : Prop := ∃ τ, n.ty = some τ ∧ FormTyped b n.form τ

theorem formTyped_block {b : Builtins} {items : List Node} {τ : Ty} (h : items = [] → τ = b.void) :
    FormTyped b (.block items) τ := by
  cases items with
  | nil => exact h rfl
  | cons _ _ => trivial

/-- A node with no child that is neither a literal, a block nor a list is typed by any type
recorded on it. -/
theorem all_withTy_of_leaf {b : Builtins} {n : Node} (t : Ty) (hf : FormTyped b n.form t)
    (hc : FormAll (Typed b) n.form) : (n.withTy t).All (Typed b) :=
  ⟨⟨t, rfl, hf⟩, hc⟩

end Node

namespace Check

/-- Every value `m` returns, in a setting whose built-in types are `b`, satisfies `Q`. -/
def Returns {α : Type} (b : Builtins) (m : Check α) (Q : α → Prop) : Prop :=
  ∀ σ st, σ.builtins = b → ∀ a, (m.exec σ st).1 = .ok a → Q a

namespace Returns

variable {α β : Type} {b : Builtins}

theorem pure {a : α} {Q : α → Prop} (h : Q a) : Returns b (Pure.pure a) Q :=
  fun _ _ _ _ he => by cases he; exact h

theorem throw {e : Located} {Q : α → Prop} : Returns b (MonadExcept.throw e) Q :=
  fun _ _ _ _ he => by cases he

theorem bind {m : Check α} {f : α → Check β} {Q : α → Prop} {R : β → Prop}
    (hm : Returns b m Q) (hf : ∀ a, Q a → Returns b (f a) R) : Returns b (m >>= f) R := by
  intro σ st hσ c hc
  rw [exec_bind] at hc
  rcases h : m.exec σ st with ⟨r, st'⟩
  rw [h] at hc
  cases r with
  | error e => cases hc
  | ok a => exact hf a (hm σ st hσ a (by rw [h])) σ st' hσ c hc

/-- What a step returns does not matter to what follows it. -/
theorem bind_any {m : Check α} {f : α → Check β} {R : β → Prop} (hf : ∀ a, Returns b (f a) R) :
    Returns b (m >>= f) R :=
  bind (Q := fun _ => True) (fun _ _ _ _ _ => trivial) fun a _ => hf a

/-- Nothing after a fault runs. -/
theorem throw_bind {e : Located} {f : α → Check β} {R : β → Prop} :
    Returns b (MonadExcept.throw e >>= f) R :=
  bind (Q := fun _ => False) throw fun _ h => h.elim

theorem read : Returns b (MonadReader.read : Check Setting) (·.builtins = b) :=
  fun _ _ hσ _ he => by cases he; exact hσ

end Returns

section Checked

variable {b : Builtins}

open Node

/-- A call's frame is opened only for as many arguments as the callee has parameters. -/
theorem openCall_arity (env : Nat) (f : Sig) (loc count : Nat) :
    Returns b (openCall env f loc count) (fun _ => count = f.params.length) := by
  unfold openCall
  split
  · exact Returns.throw_bind
  · rename_i h
    exact Returns.bind_any fun _ => Returns.bind_any fun _ => Returns.pure (Decidable.not_not.1 h)

/-- Binding a pattern types the pattern node. -/
theorem bindPattern_typed {p : Node} {c : String} {bs : List Binding} (hp : p.form = .pattern c bs)
    (csig : Sig) (value : Option Ty) (scope : Nat) :
    Returns b (bindPattern p csig value scope) (·.All (Typed b)) := by
  unfold bindPattern
  rw [hp]
  dsimp only
  split
  · exact Returns.throw_bind
  refine Returns.bind_any fun _ => Returns.bind_any fun _ => ?_
  -- with a value to unify or without, the rest of the binding is the same
  split
  case' h_1 => refine Returns.bind_any fun _ => ?_
  all_goals
    exact Returns.bind_any fun _ => Returns.bind_any fun _ => Returns.bind_any fun t =>
      Returns.pure (all_withTy_of_leaf t (by rw [hp]; trivial) (by rw [hp]; trivial))

mutual

/-- **Checking a node types every node of it.** The node returned carries the type returned,
and it and every node inside it carry a type, the built-in one for a literal, an empty
block and a list literal. -/
theorem typeOf_checked (d env : Nat) (ctx : Ctx) :
    (n : Node) → Returns b (typeOf d env ctx n) (fun r => r.2.ty = some r.1 ∧ r.2.All (Typed b))
  | .mk f sp _ => by
    rw [typeOf]
    refine Returns.bind_any fun σ => ?_
    dsimp only
    split
    · exact Returns.throw_bind
    exact Returns.bind (inferForm_checked (d + 1) env ctx sp f) fun ⟨t, f'⟩ h =>
      Returns.pure ⟨rfl, ⟨t, rfl, h.1⟩, h.2⟩

theorem inferForm_checked (d env : Nat) (ctx : Ctx) (sp : Span) :
    (f : Form) → Returns b (inferForm d env ctx sp f)
      (fun r => FormTyped b r.2 r.1 ∧ FormAll (Typed b) r.2)
  | .str _ => by
    unfold inferForm
    exact Returns.bind Returns.read fun σ hσ => Returns.pure ⟨by rw [hσ]; rfl, trivial⟩
  | .num _ => by
    unfold inferForm
    exact Returns.bind Returns.read fun σ hσ => Returns.pure ⟨by rw [hσ]; rfl, trivial⟩
  | .ident x => by
    unfold inferForm
    refine Returns.bind_any fun _ => ?_
    split
    · exact Returns.pure ⟨trivial, trivial⟩
    · exact Returns.throw
  | .binary op l r => by
    unfold inferForm
    refine Returns.bind_any fun _ => ?_
    refine Returns.bind (typeOf_checked d env .plain l) fun ⟨_, l'⟩ hl => ?_
    refine Returns.bind_any fun _ => Returns.bind_any fun _ => ?_
    dsimp only
    split
    · refine Returns.bind (typeOf_checked d env .plain r) fun ⟨_, r'⟩ hr => ?_
      refine Returns.bind_any fun _ => Returns.bind_any fun _ => ?_
      split
      · exact Returns.pure ⟨trivial, hl.2, hr.2⟩
      · exact Returns.throw_bind
    · exact Returns.throw_bind
  | .unary op o => by
    unfold inferForm
    exact Returns.bind (typeOf_checked d env .plain o) fun ⟨_, o'⟩ ho =>
      Returns.bind_any fun _ => Returns.pure ⟨trivial, ho.2⟩
  | .func x ps body => by
    unfold inferForm
    refine Returns.bind_any fun _ => ?_
    extract_lets jp
    have hk : ∀ sig, Returns b (jp sig) (fun r => FormTyped b r.2 r.1 ∧ FormAll (Typed b) r.2) :=
      fun sig => by
        dsimp only [jp]
        split
        · exact Returns.throw_bind
        refine Returns.bind_any fun scope => Returns.bind_any fun _ => Returns.bind_any fun _ => ?_
        refine Returns.bind (typeOf_checked d scope .plain body) fun ⟨_, body'⟩ hb => ?_
        refine Returns.bind_any fun _ => Returns.bind_any fun _ => Returns.bind_any fun _ => ?_
        split
        · exact Returns.pure ⟨trivial, hb.2⟩
        · exact Returns.throw_bind
    split
    · exact Returns.bind_any fun sig => hk sig
    · exact Returns.throw_bind
  | .block items => by
    unfold inferForm
    extract_lets jp
    have hk : ∀ scope, Returns b (jp scope)
        (fun r => FormTyped b r.2 r.1 ∧ FormAll (Typed b) r.2) := fun scope =>
      Returns.bind Returns.read fun σ hσ =>
        Returns.bind (typeBlock_checked d scope σ.builtins.void items) fun ⟨_, items'⟩ h =>
          Returns.pure ⟨formTyped_block fun he => (h.1 he).trans (by rw [hσ]), h.2⟩
    cases ctx with
    | scope j => exact Returns.bind_any hk
    | plain => exact Returns.bind_any hk
    | subject _ => exact Returns.bind_any hk
  | .call callee args _ => by
    unfold inferForm
    refine Returns.bind (typeOf_checked d env .plain callee) fun ⟨_, callee'⟩ hc => ?_
    refine Returns.bind_any fun _ => ?_
    extract_lets jp
    have hk : ∀ f, Returns b (jp f) (fun r => FormTyped b r.2 r.1 ∧ FormAll (Typed b) r.2) :=
      fun f => by
        refine Returns.bind (openCall_arity env f _ _) fun scope hs => ?_
        refine Returns.bind (typeArgs_checked d env scope f 1 args f.params hs) fun args' ha => ?_
        refine Returns.bind_any fun _ => Returns.bind_any fun _ => Returns.bind_any fun _ => ?_
        exact Returns.pure ⟨trivial, hc.2, ha⟩
    split
    · exact Returns.bind_any fun f => hk f
    · exact Returns.throw_bind
  | .cond c t none => by
    unfold inferForm
    refine Returns.bind (typeOf_checked d env .plain c) fun ⟨_, c'⟩ hc => ?_
    refine Returns.bind (typeOf_checked d env .plain t) fun ⟨_, t'⟩ ht => ?_
    exact Returns.bind_any fun _ => Returns.pure ⟨trivial, hc.2, ht.2⟩
  | .cond c t (some e) => by
    unfold inferForm
    refine Returns.bind (typeOf_checked d env .plain c) fun ⟨_, c'⟩ hc => ?_
    refine Returns.bind (typeOf_checked d env .plain t) fun ⟨_, t'⟩ ht => ?_
    refine Returns.bind_any fun _ => ?_
    refine Returns.bind (typeOf_checked d env .plain e) fun ⟨_, e'⟩ he => ?_
    refine Returns.bind_any fun _ => Returns.bind_any fun _ => ?_
    split
    · exact Returns.pure ⟨trivial, hc.2, ht.2, he.2⟩
    · exact Returns.throw
  | .list items => by
    unfold inferForm
    refine Returns.bind (typeItems_checked d env none items) fun ⟨_, items'⟩ hi => ?_
    dsimp -zeta only
    extract_lets jp
    have hk : ∀ elem, Returns b (jp elem)
        (fun r => FormTyped b r.2 r.1 ∧ FormAll (Typed b) r.2) := fun elem =>
      Returns.bind Returns.read fun σ hσ => Returns.pure ⟨⟨elem, by rw [hσ]⟩, hi⟩
    split
    · exact Returns.bind_any hk
    · exact Returns.bind_any fun _ => Returns.bind_any hk
  | .matchOn value cases => by
    unfold inferForm
    refine Returns.bind (typeOf_checked d env .plain value) fun ⟨_, value'⟩ hv => ?_
    refine Returns.bind_any fun _ => ?_
    dsimp only
    split
    · exact Returns.throw_bind
    refine Returns.bind (typeCases_checked d env _ none cases) fun ⟨_, cases'⟩ hcs => ?_
    split
    · exact Returns.bind_any fun _ => Returns.pure ⟨trivial, hv.2, hcs⟩
    · exact Returns.bind_any fun _ => Returns.bind_any fun _ => Returns.pure ⟨trivial, hv.2, hcs⟩
  | .case p body => by
    unfold inferForm
    split
    · rename_i c bs hp
      refine Returns.bind_any fun csig => Returns.bind_any fun scope => ?_
      refine Returns.bind (bindPattern_typed hp csig _ scope) fun p' hp' => ?_
      exact Returns.bind (typeOf_checked d scope .plain body) fun ⟨_, body'⟩ hb =>
        Returns.pure ⟨trivial, hp', hb.2⟩
    · exact Returns.throw
  | .letIn assignments body => by
    unfold inferForm
    refine Returns.bind_any fun scope => ?_
    refine Returns.bind (typeAssignments_checked d scope assignments) fun as' has => ?_
    exact Returns.bind (typeOf_checked d scope (.scope scope) body) fun ⟨_, body'⟩ hb =>
      Returns.pure ⟨trivial, has, hb.2⟩
  | .assign left value => by
    unfold inferForm
    refine Returns.bind (typeOf_checked d env .plain value) fun ⟨_, value'⟩ hv => ?_
    refine Returns.bind_any fun v => ?_
    split
    · rename_i x hx
      -- a name on the left records the value's type
      exact Returns.bind_any fun _ => Returns.pure
        ⟨trivial, all_withTy_of_leaf v (by rw [hx]; trivial) (by rw [hx]; trivial), hv.2⟩
    · rename_i c bs hp
      refine Returns.bind_any fun csig => Returns.bind_any fun _ => ?_
      dsimp only
      split
      · exact Returns.bind (bindPattern_typed hp csig _ env) fun left' hl =>
          Returns.pure ⟨trivial, hl, hv.2⟩
      · exact Returns.throw_bind
    · exact Returns.throw
  | .construct x args => by
    unfold inferForm
    refine Returns.bind_any fun _ => ?_
    extract_lets jp
    have hk : ∀ csig, Returns b (jp csig)
        (fun r => FormTyped b r.2 r.1 ∧ FormAll (Typed b) r.2) := fun csig => by
      refine Returns.bind (openCall_arity env csig _ _) fun scope hs => ?_
      refine Returns.bind (typeArgs_checked d env scope csig 1 args csig.params hs)
        fun args' ha => ?_
      exact Returns.bind_any fun _ => Returns.pure ⟨trivial, ha⟩
    split
    · exact Returns.bind_any fun csig => hk csig
    · exact Returns.throw_bind
  | .pattern c _ => by
    unfold inferForm
    exact Returns.bind_any fun _ => Returns.pure ⟨trivial, trivial⟩

theorem typeBlock_checked (d scope : Nat) (last : Ty) :
    (items : List Node) → Returns b (typeBlock d scope last items)
      (fun r => (r.2 = [] → r.1 = last) ∧ ListAll (Typed b) r.2)
  | [] => by
    unfold typeBlock
    exact Returns.pure ⟨fun _ => rfl, trivial⟩
  | n :: ns => by
    unfold typeBlock
    refine Returns.bind (typeOf_checked d scope .plain n) fun ⟨t, n'⟩ hn => ?_
    exact Returns.bind (typeBlock_checked d scope t ns) fun ⟨_, ns'⟩ hns =>
      Returns.pure ⟨fun h => absurd h (List.cons_ne_nil _ _), hn.2, hns.2⟩

/-- Every argument is typed: the call's frame was opened only when there are as many of them
as parameters. -/
theorem typeArgs_checked (d env scope : Nat) (f : Sig) :
    (pos : Nat) → (as : List Node) → (ps : List Ty) → as.length = ps.length →
      Returns b (typeArgs d env scope f pos as ps) (ListAll (Typed b))
  | pos, a :: as, p :: ps, hlen => by
    unfold typeArgs
    refine Returns.bind_any fun _ => ?_
    refine Returns.bind (typeOf_checked d env .plain a) fun ⟨_, a'⟩ ha => ?_
    refine Returns.bind_any fun _ => Returns.bind_any fun _ => ?_
    dsimp only
    split
    · exact Returns.bind (typeArgs_checked d env scope f (pos + 1) as ps (by simpa using hlen))
        fun as' has => Returns.pure ⟨ha.2, has⟩
    · split
      · exact Returns.throw_bind
      · exact Returns.throw_bind
  | pos, [], _, _ => by
    unfold typeArgs
    exact Returns.pure trivial
  | pos, _ :: _, [], hlen => by
    simp at hlen

theorem typeItems_checked (d env : Nat) :
    (elem : Option Ty) → (items : List Node) →
      Returns b (typeItems d env elem items) (fun r => ListAll (Typed b) r.2)
  | _, [] => by
    unfold typeItems
    exact Returns.pure trivial
  | elem, n :: ns => by
    unfold typeItems
    refine Returns.bind (typeOf_checked d env .plain n) fun ⟨_, n'⟩ hn => ?_
    refine Returns.bind_any fun _ => Returns.bind_any fun _ => ?_
    split
    · exact Returns.bind (typeItems_checked d env _ ns) fun ⟨_, ns'⟩ hns =>
        Returns.pure ⟨hn.2, hns⟩
    · exact Returns.throw

theorem typeCases_checked (d env : Nat) (subject : Ty) :
    (result : Option Ty) → (cases : List Node) →
      Returns b (typeCases d env subject result cases) (fun r => ListAll (Typed b) r.2)
  | _, [] => by
    unfold typeCases
    exact Returns.pure trivial
  | result, c :: cs => by
    unfold typeCases
    refine Returns.bind (typeOf_checked d env (.subject subject) c) fun ⟨_, c'⟩ hc => ?_
    refine Returns.bind_any fun _ => Returns.bind_any fun _ => ?_
    split
    · exact Returns.bind (typeCases_checked d env subject _ cs) fun ⟨_, cs'⟩ hcs =>
        Returns.pure ⟨hc.2, hcs⟩
    · exact Returns.throw

theorem typeAssignments_checked (d scope : Nat) :
    (as : List Node) → Returns b (typeAssignments d scope as) (ListAll (Typed b))
  | [] => by
    unfold typeAssignments
    exact Returns.pure trivial
  | a :: as => by
    unfold typeAssignments
    refine Returns.bind (typeOf_checked d scope .plain a) fun ⟨_, a'⟩ ha => ?_
    exact Returns.bind (typeAssignments_checked d scope as) fun as' has =>
      Returns.pure ⟨ha.2, has⟩

end

end Checked

end Check

/-- The tree a successful check returns is typed throughout, by the built-in types that the
program's root scope binds. -/
theorem check_checked {prog : Program} {maxDepth : Nat} {t : Ty} {root : Node}
    (h : check prog maxDepth = .ok (t, root)) :
    root.ty = some t ∧ root.All (Node.Typed (.ofDecls prog.decls)) := by
  rw [check_eq_exec] at h
  exact Check.typeOf_checked 0 0 .plain prog.body _ _ rfl _ h

/-- **A successful check annotates every node.** Whatever the program, when checking
succeeds every node of the tree it returns carries a type: cases, the patterns of cases and
of assignments and the names on the left of assignments included. The root block carries
the type the check returns. -/
theorem check_annotates_every_node {prog : Program} {maxDepth : Nat} {t : Ty} {root : Node}
    (h : check prog maxDepth = .ok (t, root)) :
    root.ty = some t ∧ ∀ n ∈ root.preorder, n.ty.isSome := by
  obtain ⟨hroot, hall⟩ := check_checked h
  refine ⟨hroot, fun n hn => ?_⟩
  obtain ⟨τ, hτ, -⟩ := Node.all_of_mem_preorder hall hn
  simp [hτ]

/-- The root block of `let x = 1 { x }`. -/
def letOneBody : Node :=
  .mk (.block [.mk (.letIn
    [.mk (.assign (.mk (.ident "x") ⟨4, 5⟩ none) (.mk (.num (.int 1)) ⟨8, 9⟩ none)) ⟨4, 9⟩ none]
    (.mk (.block [.mk (.ident "x") ⟨12, 13⟩ none]) ⟨10, 15⟩ none)) ⟨0, 15⟩ none]) ⟨0, 15⟩ none

/-- `let x = 1 { x }` checks, and its tree comes back typed throughout, the name on the left
of its assignment included. -/
theorem check_annotates_letOne :
    ∃ t root, check ⟨letOneBody, .initial⟩ 8 = .ok (t, root) ∧
      root.ty = some t ∧ ∀ n ∈ root.preorder, n.ty.isSome := by
  have hok : (check ⟨letOneBody, .initial⟩ 8).isOk = true := by decide +kernel
  match hc : check ⟨letOneBody, .initial⟩ 8, hok with
  | .ok (t, root), _ => exact ⟨t, root, rfl, check_annotates_every_node hc⟩

end Verve
