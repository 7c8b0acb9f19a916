import Verve.Proofs.Translation

/-!
# Checking commutes with renaming generics

A `Renaming` is a one-to-one renaming of names that renames a fresh copy `g#k` as it renames
`g`. Applied to a whole check it renames the names bound in the scopes and the generics in
every type, and keeps the frames, the fresh counter and the declared interfaces. Checking
commutes with it, as long as it leaves alone the names checking reads from the program's text
or builds from fixed pieces: the names the nodes look up and bind (`Node.EveryName`), the
root names of the built-in types, and every name that begins with a method's name, since a
call of a method dispatches to such a name (`Renaming.Keeps`).

`Renaming.Commutes R F Q m m'` says that `m'`, run in the renamed setting from the renamed
store, gives `m`'s value under `F` or `m`'s fault renamed, and the renamed store. Each step
that reads or writes the scopes commutes with the same step on renamed arguments
(`Renaming.commutes_simp`, `…_freshGeneric`, `…_accepts`), so a renaming is a translation of
checking (`Renaming.steps`), and the check of a node commutes with the check of the same node
(`Renaming.commutes_typeOf`, from `Check.Translation.Steps.typeOf`). So a program whose
declarations are renamed checks to the renamed outcome (`check_rename`).
-/

namespace Verve

/-- The built-in types hold only methods named by `P`. -/
def Builtins.Methods (P : String → Prop) (b : Builtins) : Prop :=
  ∀ t ∈ [b.int, b.float, b.string, b.void, b.list], t.Methods P

/-- **A renaming that checking commutes with**: one to one, renaming a fresh copy `g#k` as it
renames `g`, and keeping `T`, the name the list type's parameter falls back to. -/
structure Renaming where
  name : String → String
  injective : Function.Injective name
  fresh : ∀ g k, name (g ++ "#" ++ k) = name g ++ "#" ++ k
  list : name "T" = "T"

namespace Renaming

variable (R : Renaming)

/-- A type renamed. -/
def ty (t : Ty) : Ty := t.rename R.name

/-- `R` keeps every name that begins with `n`: every symbol a method named `n` can dispatch
to. -/
def Keeps (n : String) : Prop := ∀ k, R.name (n ++ k) = n ++ k

/-- The built-in types renamed. -/
def builtins (b : Builtins) : Builtins :=
  ⟨R.ty b.int, R.ty b.float, R.ty b.string, R.ty b.void, R.ty b.list⟩

/-- A declaration table with its root scope renamed. -/
def decls (d : Decls) : Decls := { d with env := renameBinds R.name d.env }

/-- A setting renamed: its declarations and built-in types; the nesting limit and the live
interfaces stay. -/
def setting (σ : Setting) : Setting :=
  { σ with decls := R.decls σ.decls, builtins := R.builtins σ.builtins }

/-- A store renamed: its scopes; the fresh counter stays. -/
def store (st : Store) : Store := ⟨st.scopes.rename R.name, st.fresh⟩

/-- An implementation a call reaches, renamed. -/
def dispatch (d : Dispatch) : Dispatch := ⟨d.symbol, R.ty d.target⟩

mutual

/-- A checked node renamed: every type it records. -/
def node : Node → Node
  | .mk f sp t => .mk (form f) sp (t.map R.ty)

/-- `node` for a form. -/
def form : Form → Form
  | .str v => .str v
  | .num l => .num l
  | .ident x => .ident x
  | .binary op l r => .binary op (node l) (node r)
  | .unary op o => .unary op (node o)
  | .func x ps b => .func x ps (node b)
  | .block xs => .block (nodes xs)
  | .call c as d => .call (node c) (nodes as) (d.map R.dispatch)
  | .cond c t none => .cond (node c) (node t) none
  | .cond c t (some e) => .cond (node c) (node t) (some (node e))
  | .list xs => .list (nodes xs)
  | .matchOn v cs => .matchOn (node v) (nodes cs)
  | .case p b => .case (node p) (node b)
  | .letIn as b => .letIn (nodes as) (node b)
  | .assign l v => .assign (node l) (node v)
  | .construct x as => .construct x (nodes as)
  | .pattern c bs => .pattern c bs

/-- `node` for every member of a list. -/
def nodes : List Node → List Node
  | [] => []
  | n :: ns => node n :: nodes ns

end

/-- What a node's surroundings pass to it, renamed. -/
def ctx : Ctx → Ctx
  | .plain => .plain
  | .scope f => .scope f
  | .subject t => .subject (R.ty t)

/-- A fault renamed: the types it reports. -/
def fault : Fault → Fault
  | .argumentType f e r p => .argumentType f (R.ty e) (R.ty r) p
  | .missingImplementation i t => .missingImplementation i (R.ty t)
  | .returnTypeMismatch e r => .returnTypeMismatch (R.ty e) (R.ty r)
  | .operandType s t => .operandType s (R.ty t)
  | .branchTypeMismatch a b => .branchTypeMismatch (R.ty a) (R.ty b)
  | .mixedListType f i => .mixedListType (R.ty f) (R.ty i)
  | .mixedMatchType f i => .mixedMatchType (R.ty f) (R.ty i)
  | .patternMismatch v c => .patternMismatch (R.ty v) c
  | f => f

/-- A located fault renamed; the position stays. -/
def located (e : Located) : Located := ⟨R.fault e.fault, e.pos⟩

/-- The outcome of a step renamed: its value under `F`, or its fault renamed. -/
def except {α β : Type} (F : α → β) : Except Located α → Except Located β
  | .ok a => .ok (F a)
  | .error e => .error (R.located e)

/-- The outcome of checking a program renamed: its root type and tree, or its fault. -/
def checked : Except Located (Ty × Node) → Except Located (Ty × Node) :=
  R.except fun r => (R.ty r.1, R.node r.2)

/-- **`m'` does what `m` does, renamed by `R`.** From a store whose scopes hold only methods
that `R` keeps, in a setting whose built-in types hold only such methods, `m'` run in the
renamed setting from the renamed store gives `m`'s value under `F` or `m`'s fault renamed, and
leaves the renamed store; the store `m` leaves holds only such methods, and every value `m`
gives satisfies `Q`. -/
def Commutes {α β : Type} (F : α → β) (Q : α → Prop) (m : Check α) (m' : Check β) : Prop :=
  ∀ σ st, σ.builtins.Methods R.Keeps → st.scopes.Methods R.Keeps →
    m'.exec (R.setting σ) (R.store st) = (R.except F (m.exec σ st).1, R.store (m.exec σ st).2) ∧
      (m.exec σ st).2.scopes.Methods R.Keeps ∧ ∀ a, (m.exec σ st).1 = .ok a → Q a

@[simp] theorem setting_decls (σ : Setting) : (R.setting σ).decls = R.decls σ.decls := rfl

@[simp] theorem setting_builtins (σ : Setting) : (R.setting σ).builtins = R.builtins σ.builtins :=
  rfl

@[simp] theorem decls_ifaces (d : Decls) : (R.decls d).ifaces = d.ifaces := rfl

@[simp] theorem decls_types (d : Decls) : (R.decls d).types = d.types := rfl

@[simp] theorem scopes_store (st : Store) : (R.store st).scopes = st.scopes.rename R.name := rfl

@[simp] theorem fresh_store (st : Store) : (R.store st).fresh = st.fresh := rfl

@[simp] theorem ty_generic (n : String) : R.ty (.generic n) = .generic (R.name n) := rfl

namespace Commutes

variable {R} {α α' β β' : Type}

theorem pure {a : α} {F : α → α'} {Q : α → Prop} (h : Q a) :
    R.Commutes F Q (Pure.pure a) (Pure.pure (F a)) :=
  fun _ _ _ hst => ⟨rfl, hst, fun _ he => by cases he; exact h⟩

theorem throw {e : Located} {F : α → α'} {Q : α → Prop} :
    R.Commutes F Q (MonadExcept.throw e) (MonadExcept.throw (R.located e)) :=
  fun _ _ _ hst => ⟨rfl, hst, fun _ he => by cases he⟩

end Commutes

section Steps

variable {R}

theorem commutes_lookupName (i : Nat) (x : String) :
    R.Commutes (Option.map R.ty) (fun o => ∀ t ∈ o, t.Methods R.Keeps) (Check.lookupName i x)
      (Check.lookupName i (R.name x)) := by
  intro σ st _ hst
  simp only [Check.exec_lookupName, scopes_store, Scopes.get_rename R.injective]
  exact ⟨rfl, hst, fun o ho t ht => by cases ho; exact hst.get ht⟩

theorem commutes_simp (i : Nat) {t : Ty} (ht : t.Methods R.Keeps) :
    R.Commutes R.ty (·.Methods R.Keeps) (Check.simp i t) (Check.simp i (R.ty t)) := by
  intro σ st _ hst
  simp only [Check.exec_simp, scopes_store, ty, Scopes.simplify_rename R.injective]
  exact ⟨rfl, hst, fun u hu => by cases hu; exact hst.simplify i ht⟩

theorem commutes_bindName (i : Nat) (x : String) {t : Ty} (ht : t.Methods R.Keeps) :
    R.Commutes id (fun _ => True) (Check.bindName i x t)
      (Check.bindName i (R.name x) (R.ty t)) := by
  intro σ st _ hst
  simp only [Check.exec_bindName, scopes_store, ty, ← Scopes.set_rename]
  exact ⟨rfl, hst.set i x ht, fun _ _ => trivial⟩

theorem commutes_openFrame (i : Nat) :
    R.Commutes id (fun _ => True) (Check.openFrame i) (Check.openFrame i) := by
  intro σ st _ hst
  simp only [Check.exec_openFrame, scopes_store, Scopes.size_rename, Scopes.child_rename]
  exact ⟨rfl, hst.child i, fun _ _ => trivial⟩

/-- **A fresh copy is the renamed fresh copy**: both runs number it alike. -/
theorem commutes_freshGeneric (g : String) :
    R.Commutes R.ty (·.Methods R.Keeps) (Check.freshGeneric g) (Check.freshGeneric (R.name g)) := by
  intro σ st _ hst
  simp only [Check.exec_freshGeneric, fresh_store]
  refine ⟨?_, hst, fun u hu => by cases hu; trivial⟩
  simp only [except, ty_generic, R.fresh]
  rfl

theorem commutes_answer (o : Outcome) (pos : Nat) :
    R.Commutes id (fun _ => True) (Check.answer o pos) (Check.answer (o.rename R.name) pos) := by
  cases o with
  | holds p => exact Commutes.pure trivial
  | fails => exact Commutes.pure trivial
  | endless => exact Commutes.throw

theorem commutes_assignable (i : Nat) (e a : Ty) (pos : Nat) :
    R.Commutes id (fun _ => True) (Check.assignable i e a pos)
      (Check.assignable i (R.ty e) (R.ty a) pos) := by
  intro σ st hσ hst
  have hv : View.Renamed R.name ⟨st.scopes, i, σ.decls⟩ ⟨(R.store st).scopes, i, (R.setting σ).decls⟩ :=
    ⟨rfl, rfl, rfl⟩
  have h := commutes_answer (R := R) ((View.mk st.scopes i σ.decls).assignable e a) pos σ st hσ hst
  unfold Check.assignable
  simp only [Check.exec_bind, Check.exec_read]
  rw [← (hv.looksRenamed R.injective).assignable e a] at h
  exact h

/-- Running a search that binds, side by side: the searches commute with renaming. -/
theorem commutes_binding {f : View → Ty → Ty → Outcome × Scopes} (i : Nat) (e a : Ty) (pos : Nat)
    (hf : ∀ v w, View.Renamed R.name v w →
      f w (R.ty e) (R.ty a) = ((f v e a).1.rename R.name, (f v e a).2.rename R.name))
    (hp : ∀ v : View, v.scopes.Methods R.Keeps → (f v e a).2.Methods R.Keeps) :
    R.Commutes id (fun _ => True) (Check.binding f i e a pos)
      (Check.binding f i (R.ty e) (R.ty a) pos) := by
  intro σ st hσ hst
  have hv : View.Renamed R.name ⟨st.scopes, i, σ.decls⟩ ⟨(R.store st).scopes, i, (R.setting σ).decls⟩ :=
    ⟨rfl, rfl, rfl⟩
  rw [Check.exec_binding, Check.exec_binding, hf _ _ hv]
  exact commutes_answer _ pos σ ⟨(f ⟨st.scopes, i, σ.decls⟩ e a).2, st.fresh⟩ hσ (hp _ hst)

theorem commutes_unify (i : Nat) (e : Ty) {a : Ty} (ha : a.Methods R.Keeps) (pos : Nat) :
    R.Commutes id (fun _ => True) (Check.unify i e a pos)
      (Check.unify i (R.ty e) (R.ty a) pos) :=
  commutes_binding i e a pos (fun _ _ hv => hv.unify R.injective e a)
    fun v hv => v.unify_methods hv e ha

theorem commutes_accepts (i : Nat) (e : Ty) {a : Ty} (ha : a.Methods R.Keeps) (pos : Nat) :
    R.Commutes id (fun _ => True) (Check.accepts i e a pos)
      (Check.accepts i (R.ty e) (R.ty a) pos) :=
  commutes_binding i e a pos (fun _ _ hv => hv.accepts R.injective e a)
    fun v hv => v.accepts_methods hv e ha

end Steps

/-! ### Renaming as a translation -/

section Translation

/-- Renaming as a translation of checking: names renamed, frames kept, the setting and the
store renamed, types holding only methods that `R` keeps. -/
def translation : Check.Translation where
  name := R.name
  frame := id
  setting := R.setting
  Fits σ := σ.builtins.Methods R.Keeps
  Stores st st' := st' = R.store st ∧ st.scopes.Methods R.Keeps
  Good := Ty.Methods R.Keeps

theorem except_eq {α β : Type} (F : α → β) (r : Except Located α) :
    R.except F r = R.translation.except F r := by
  cases r with
  | ok a => rfl
  | error e =>
    obtain ⟨f, pos⟩ := e
    cases f <;> rfl

theorem ctx_eq (ctx : Ctx) : R.ctx ctx = R.translation.ctx ctx := by
  cases ctx <;> rfl

mutual

theorem node_eq : (n : Node) → R.node n = Node.rename R.name n
  | .mk f sp t => by rw [node, Node.rename, form_eq f]; rfl

theorem form_eq : (f : Form) → R.form f = Form.rename R.name f
  | .str _ | .num _ | .ident _ | .pattern _ _ => rfl
  | .binary _ l r => by rw [form, Form.rename, node_eq l, node_eq r]
  | .unary _ o => by rw [form, Form.rename, node_eq o]
  | .func _ _ b => by rw [form, Form.rename, node_eq b]
  | .block xs => by rw [form, Form.rename, nodes_eq xs]
  | .call c as _ => by rw [form, Form.rename, node_eq c, nodes_eq as]; rfl
  | .cond c t none => by rw [form, Form.rename, node_eq c, node_eq t]
  | .cond c t (some e) => by rw [form, Form.rename, node_eq c, node_eq t, node_eq e]
  | .list xs => by rw [form, Form.rename, nodes_eq xs]
  | .matchOn v cs => by rw [form, Form.rename, node_eq v, nodes_eq cs]
  | .case p b => by rw [form, Form.rename, node_eq p, node_eq b]
  | .letIn as b => by rw [form, Form.rename, nodes_eq as, node_eq b]
  | .assign l v => by rw [form, Form.rename, node_eq l, node_eq v]
  | .construct _ as => by rw [form, Form.rename, nodes_eq as]

theorem nodes_eq : (ns : List Node) → R.nodes ns = Node.renameList R.name ns
  | [] => rfl
  | n :: ns => by rw [nodes, Node.renameList, node_eq n, nodes_eq ns]

end

variable {R}

/-- A step that commutes with renaming is simulated under the translation: the second run's
store is the renamed store. -/
theorem Commutes.translation {α β : Type} {F : α → β} {Q : α → Prop} {m : Check α}
    {m' : Check β} (h : R.Commutes F Q m m') : R.translation.Sim F Q m m' := by
  rintro σ st _ hσ ⟨rfl, hst⟩
  obtain ⟨heq, hst1, hq⟩ := h σ st hσ hst
  have heq' : m'.exec (R.translation.setting σ) (R.store st) = _ := heq
  rw [heq']
  exact ⟨⟨rfl, hst1⟩, R.except_eq F _, hq⟩

theorem Commutes.of_translation {α β : Type} {F : α → β} {Q : α → Prop} {m : Check α}
    {m' : Check β} (h : R.translation.Sim F Q m m') : R.Commutes F Q m m' := by
  intro σ st hσ hst
  obtain ⟨⟨hst', hst1⟩, hres, hq⟩ := h σ st (R.store st) hσ ⟨rfl, hst⟩
  exact ⟨Prod.ext (hres.trans (R.except_eq F _).symm) hst', hst1, hq⟩

variable (R)

/-- **Renaming is a translation of checking**: each step that reads or writes the scopes
commutes with the same step renamed, a method's dispatch symbols are kept, and the renamed
setting holds the renamed built-in types. -/
theorem steps : R.translation.Steps where
  injective := R.injective
  lookupName i x := (commutes_lookupName i x).translation
  simp i _ ht := (commutes_simp i ht).translation
  bindName i x _ ht := (commutes_bindName i x ht).translation
  openFrame i := (commutes_openFrame i).translation
  freshGeneric g := (commutes_freshGeneric g).translation
  assignable i e a pos := (commutes_assignable i e a pos).translation
  unify i e _ ha pos := (commutes_unify i e ha pos).translation
  accepts i e _ ha pos := (commutes_accepts i e ha pos).translation
  inherited := Ty.methods_inherited R.Keeps
  generic _ := trivial
  owner _ := trivial
  fn_ret _ h hr := ⟨h.1, h.2.1, hr⟩
  ctor h := ⟨(Ty.methodsList_iff _).1 h.1, h.2⟩
  dispatch h _ _ := h.1 rfl _
  list := R.list
  builtins _ _ := rfl
  builtins_good _ hσ := hσ
  maxDepth _ := rfl
  live _ := rfl

variable {R}

/-- **A node checks to the renamed outcome**, its type and annotated tree renamed, as long as
the names it reads are kept. -/
theorem commutes_typeOf (d env : Nat) (ctx : Ctx) (hctx : ∀ t, ctx = .subject t → t.Methods R.Keeps) :
    (n : Node) → n.EveryName (fun x => R.name x = x) →
      R.Commutes (fun r => (R.ty r.1, R.node r.2)) (fun r => r.1.Methods R.Keeps)
        (Check.typeOf d env ctx n) (Check.typeOf d env (R.ctx ctx) n) := fun n hn => by
  have hnode : R.node = Node.rename R.name := funext R.node_eq
  rw [hnode, R.ctx_eq]
  exact Commutes.of_translation (R.steps.typeOf d env ctx hctx n hn)

end Translation

/-! ### The renamed program -/

/-- A lookup in the renamed root scope of a name `R` keeps finds the renamed binding. -/
theorem lookup_decls (d : Decls) {x : String} (hx : R.name x = x) :
    (R.decls d).lookup x = (d.lookup x).map R.ty := by
  have h := lookup_renameBinds R.injective d.env x
  rw [hx] at h
  exact h

theorem getD_map_ty (o : Option Ty) {t : Ty} (ht : R.ty t = t) :
    (o.map R.ty).getD t = R.ty (o.getD t) := by
  cases o with
  | none => exact ht.symm
  | some u => rfl

/-- **The built-in types of a renamed program are the renamed built-in types**, when `R` keeps
the names they are bound to. -/
theorem ofDecls_decls (d : Decls)
    (h : ∀ x ∈ ["int", "float", "string", "void", "list"], R.name x = x) :
    Builtins.ofDecls (R.decls d) = R.builtins (Builtins.ofDecls d) := by
  -- each built-in type is read under a name `R` keeps, or is a default that `R` keeps
  have hb : ∀ x ∈ ["int", "float", "string", "void", "list"], ∀ t, R.ty t = t →
      ((R.decls d).lookup x).getD t = R.ty ((d.lookup x).getD t) := fun x hx t ht => by
    rw [lookup_decls R d (h x hx), getD_map_ty R _ ht]
  have hlist : R.ty (.enum Decls.listRef) = .enum Decls.listRef := by
    simp [ty, Decls.listRef, EnumRef.rename, R.list]
  simp only [Builtins.ofDecls, builtins]
  rw [hb "int" (by simp) _ rfl, hb "float" (by simp) _ rfl, hb "string" (by simp) _ rfl,
    hb "void" (by simp) _ rfl, hb "list" (by simp) _ hlist]

theorem dropUnheld_decls (d : Decls) (roots : List Nat) :
    ∀ (fuel : Nat) (live : List Nat), (R.decls d).dropUnheld roots fuel live = d.dropUnheld roots fuel live
  | 0, _ => rfl
  | fuel + 1, live => by
    simp only [Decls.dropUnheld, decls_ifaces, dropUnheld_decls d roots fuel]

/-- Renaming keeps which interfaces stay declared: it keeps the numbers every type holds on to. -/
theorem liveIfaces_decls (d : Decls) : (R.decls d).liveIfaces = d.liveIfaces := by
  have hroots : (latestBindings (R.decls d).env).flatMap (·.2.ifaceIds) =
      (latestBindings d.env).flatMap (·.2.ifaceIds) := by
    show (latestBindings (renameBinds R.name d.env)).flatMap _ = _
    rw [latestBindings_renameBinds R.injective]
    simp [renameBinds, List.flatMap_map, Ty.ifaceIds_rename]
  unfold Decls.liveIfaces
  rw [dropUnheld_decls, decls_ifaces, decls_types, List.flatMap_append, List.flatMap_append, hroots]

theorem store_ofRoot (env : List (String × Ty)) :
    R.store ⟨.ofRoot env, 0⟩ = ⟨.ofRoot (renameBinds R.name env), 0⟩ := by
  simp [store, Scopes.ofRoot, Scopes.rename, Frame.rename, renameBinds]

/-- The built-in types of a program hold only the methods its root scope holds. -/
theorem methods_ofDecls {P : String → Prop} {d : Decls} (h : ∀ b ∈ d.env, b.2.Methods P) :
    (Builtins.ofDecls d).Methods P := by
  have hget : ∀ (x : String) (t : Ty), t.Methods P → ((d.lookup x).getD t).Methods P := by
    intro x t ht
    cases hl : d.lookup x with
    | none => exact ht
    | some u =>
      obtain ⟨b, hb, rfl⟩ := List.mem_map.1 (lookup_snd_mem hl)
      exact h b hb
  intro t ht
  simp only [Builtins.ofDecls, List.mem_cons, List.not_mem_nil, or_false] at ht
  rcases ht with rfl | rfl | rfl | rfl | rfl <;> exact hget _ _ trivial

theorem methods_ofRoot {P : String → Prop} {env : List (String × Ty)}
    (h : ∀ b ∈ env, b.2.Methods P) : (Scopes.ofRoot env).Methods P := by
  intro t ht
  simp only [Scopes.boundTypes, Scopes.ofRoot, List.flatMap_cons,
    List.flatMap_nil, List.append_nil, List.mem_map] at ht
  obtain ⟨b, hb, rfl⟩ := ht
  exact h b hb

end Renaming

/-- **Checking commutes with renaming generics.** A program whose root scope is renamed by a
renaming `R` that keeps the names its nodes look up and bind, the root names of the built-in
types, and every name that begins with the name of a method its root scope holds, checks to
the renamed outcome: the renamed root type and tree, or the same fault with its types renamed
at the same position. -/
theorem check_rename (R : Renaming) (prog : Program) (maxDepth : Nat)
    (hbuiltin : ∀ x ∈ ["int", "float", "string", "void", "list"], R.name x = x)
    (hnames : prog.body.EveryName (fun x => R.name x = x))
    (hmethods : ∀ b ∈ prog.decls.env, b.2.Methods R.Keeps) :
    check ⟨prog.body, R.decls prog.decls⟩ maxDepth = R.checked (check prog maxDepth) := by
  rw [check_eq_exec, check_eq_exec]
  -- the renamed program starts from the renamed setting and the renamed store
  have hσ : (⟨R.decls prog.decls, .ofDecls (R.decls prog.decls), maxDepth,
      (R.decls prog.decls).liveIfaces⟩ : Setting) =
        R.setting ⟨prog.decls, .ofDecls prog.decls, maxDepth, prog.decls.liveIfaces⟩ := by
    rw [R.ofDecls_decls _ hbuiltin, R.liveIfaces_decls]
    rfl
  have hst : (⟨.ofRoot (R.decls prog.decls).env, 0⟩ : Store) = R.store ⟨.ofRoot prog.decls.env, 0⟩ :=
    (R.store_ofRoot _).symm
  rw [hσ, hst]
  exact congrArg Prod.fst (Renaming.commutes_typeOf 0 0 .plain (fun _ h => by cases h) prog.body
    hnames _ _ (Renaming.methods_ofDecls hmethods) (Renaming.methods_ofRoot hmethods)).1

end Verve
