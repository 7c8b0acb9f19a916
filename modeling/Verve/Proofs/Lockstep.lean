import Verve.Proofs.Translation

/-!
# Checking in lockstep with a relabelling

Two checks of one node can differ only in where they stand: the frames they start from and
the numbers of the fresh copies `T#k` of generics they make. A `Relabel` says how the first
run's frames and copies stand in the second: frames from `base` on are `gap` further on, and
copies numbered above `start` are `offset` further on.

`Relabel.Stores L st st'` relates the store of the first run to that of the second: the
scopes are relabelled by `L` and the fresh counter is `L.offset` ahead. `Relabel.Sim L F Q m m'`
says that `m'` from a related store does what `m` does, its value or fault relabelled, and
leaves related stores. Each step of checking that reads or writes the scopes is simulated by
the same step on relabelled arguments (`Relabel.sim_simp`, `sim_freshGeneric`, `sim_unify`,
…), so relabelling is a translation of checking (`Relabel.steps`), and the whole check of a
node is simulated by the check of the same node (`Relabel.sim_typeOf`).
-/

namespace Verve

/-- What a node's surroundings pass to it has plain types. -/
def Ctx.Plain : Ctx → Prop
  | .subject t => t.Plain
  | _ => True

namespace Node

mutual

/-- Every name the node looks up or binds has no `#`, as every name read from a program's text:
the names of variables, functions, parameters, constructors and pattern bindings. -/
def Named : Node → Prop
  | .mk f _ _ => FormNamed f

/-- `Named` of a node of this form. -/
def FormNamed : Form → Prop
  | .str _ | .num _ => True
  | .ident x => Ty.PlainName x
  | .binary _ l r => Named l ∧ Named r
  | .unary _ o => Named o
  | .func x ps b => Ty.PlainName x ∧ (∀ q ∈ ps, Ty.PlainName q.name) ∧ Named b
  | .block xs | .list xs => ListNamed xs
  | .call c as _ => Named c ∧ ListNamed as
  | .cond c t none => Named c ∧ Named t
  | .cond c t (some e) => Named c ∧ Named t ∧ Named e
  | .matchOn v cs => Named v ∧ ListNamed cs
  | .case p b => Named p ∧ Named b
  | .letIn as b => ListNamed as ∧ Named b
  | .assign l v => Named l ∧ Named v
  | .construct x as => Ty.PlainName x ∧ ListNamed as
  | .pattern c bs => Ty.PlainName c ∧ ∀ q ∈ bs, Ty.PlainName q.name

/-- Every node of the list is named plainly. -/
def ListNamed : List Node → Prop
  | [] => True
  | n :: ns => Named n ∧ ListNamed ns

end

mutual

/-- A node named plainly reads only names without a `#`. -/
theorem Named.everyName : (n : Node) → n.Named → n.EveryName Ty.PlainName
  | .mk f _ _, hn => FormNamed.everyName f hn

theorem FormNamed.everyName : (f : Form) → FormNamed f → FormEveryName Ty.PlainName f
  | .str _, _ | .num _, _ => trivial
  | .ident _, hx => hx
  | .binary _ l r, hf => ⟨Named.everyName l hf.1, Named.everyName r hf.2⟩
  | .unary _ o, hf => Named.everyName o hf
  | .func _ _ b, hf => ⟨hf.1, hf.2.1, Named.everyName b hf.2.2⟩
  | .block xs, hf | .list xs, hf => ListNamed.everyName xs hf
  | .call c as _, hf => ⟨Named.everyName c hf.1, ListNamed.everyName as hf.2⟩
  | .cond c t none, hf => ⟨Named.everyName c hf.1, Named.everyName t hf.2⟩
  | .cond c t (some e), hf =>
    ⟨Named.everyName c hf.1, Named.everyName t hf.2.1, Named.everyName e hf.2.2⟩
  | .matchOn v cs, hf => ⟨Named.everyName v hf.1, ListNamed.everyName cs hf.2⟩
  | .case p b, hf => ⟨Named.everyName p hf.1, Named.everyName b hf.2⟩
  | .letIn as b, hf => ⟨ListNamed.everyName as hf.1, Named.everyName b hf.2⟩
  | .assign l v, hf => ⟨Named.everyName l hf.1, Named.everyName v hf.2⟩
  | .construct _ as, hf => ⟨hf.1, ListNamed.everyName as hf.2⟩
  | .pattern _ _, hf => hf

theorem ListNamed.everyName : (ns : List Node) → ListNamed ns → ListEveryName Ty.PlainName ns
  | [], _ => trivial
  | n :: ns, hns => ⟨Named.everyName n hns.1, ListNamed.everyName ns hns.2⟩

end

end Node

/-- The built-in types are plain, and no generic in them has a `#`. -/
def Builtins.Fixed (b : Builtins) : Prop :=
  ∀ t ∈ [b.int, b.float, b.string, b.void, b.list],
    t.Plain ∧ ∀ x ∈ t.genericNames, Ty.PlainName x

namespace Relabel

variable (L : Relabel)

/-- An implementation reached by a call of the first run, as the second reaches it. -/
def dispatch (d : Dispatch) : Dispatch := ⟨d.symbol, L.ty d.target⟩

mutual

/-- A checked node of the first run as the second has it: every type it records relabelled. -/
def node : Node → Node
  | .mk f sp t => .mk (form f) sp (t.map L.ty)

/-- `node` for a form. -/
def form : Form → Form
  | .str v => .str v
  | .num l => .num l
  | .ident x => .ident x
  | .binary op l r => .binary op (node l) (node r)
  | .unary op o => .unary op (node o)
  | .func x ps b => .func x ps (node b)
  | .block xs => .block (nodes xs)
  | .call c as d => .call (node c) (nodes as) (d.map L.dispatch)
  | .cond c t none => .cond (node c) (node t) none
  | .cond c t (some e) => .cond (node c) (node t) (some (node e))
  | .list xs => .list (nodes xs)
  | .matchOn v cs => .matchOn (node v) (nodes cs)
  | .case p b => .case (node p) (node b)
  | .letIn as b => .letIn (nodes as) (node b)
  | .assign l v => .assign (node l) (node v)
  | .construct x as => .construct x (nodes as)
  | .pattern c bs => .pattern c bs

/-- `node` for every member of a list. -/
def nodes : List Node → List Node
  | [] => []
  | n :: ns => node n :: nodes ns

end

/-- What a node's surroundings pass to it in the first run, as the second passes it. -/
def ctx : Ctx → Ctx
  | .plain => .plain
  | .scope f => .scope (L.frame f)
  | .subject t => .subject (L.ty t)

/-- A fault of the first run as the second reports it. -/
def fault : Fault → Fault
  | .argumentType f e r p => .argumentType f (L.ty e) (L.ty r) p
  | .missingImplementation i t => .missingImplementation i (L.ty t)
  | .returnTypeMismatch e r => .returnTypeMismatch (L.ty e) (L.ty r)
  | .operandType s t => .operandType s (L.ty t)
  | .branchTypeMismatch a b => .branchTypeMismatch (L.ty a) (L.ty b)
  | .mixedListType f i => .mixedListType (L.ty f) (L.ty i)
  | .mixedMatchType f i => .mixedMatchType (L.ty f) (L.ty i)
  | .patternMismatch v c => .patternMismatch (L.ty v) c
  | f => f

/-- A located fault of the first run as the second reports it. -/
def located (e : Located) : Located := ⟨L.fault e.fault, e.pos⟩

/-- The outcome of a step of the first run as the second has it. -/
def except {α β : Type} (F : α → β) : Except Located α → Except Located β
  | .ok a => .ok (F a)
  | .error e => .error (L.located e)

/-- What the two runs keep between their stores: relabelled scopes, a fresh counter `offset`
ahead and not behind `start`, and plain bindings. -/
structure Stores (st st' : Store) : Prop where
  embeds : L.Embeds st.scopes st'.scopes
  fresh_eq : st'.fresh = st.fresh + L.offset
  start_le : L.start ≤ st.fresh
  plain : st.scopes.Plain

/-- **`m'` does what `m` does, relabelled by `L`.** Run in a setting with fixed built-in types
from related stores, `m'` gives `m`'s value under `F` or `m`'s fault relabelled, and leaves
related stores; every value `m` gives satisfies `Q`. -/
def Sim {α β : Type} (F : α → β) (Q : α → Prop) (m : Check α) (m' : Check β) : Prop :=
  ∀ σ st st', σ.builtins.Fixed → L.Stores st st' →
    L.Stores (m.exec σ st).2 (m'.exec σ st').2 ∧
      (m'.exec σ st').1 = L.except F (m.exec σ st).1 ∧
      ∀ a, (m.exec σ st).1 = .ok a → Q a

namespace Sim

variable {L} {α α' β β' : Type}

theorem pure {a : α} {F : α → α'} {Q : α → Prop} (h : Q a) :
    L.Sim F Q (Pure.pure a) (Pure.pure (F a)) :=
  fun _ _ _ _ hst => ⟨hst, rfl, fun _ he => by cases he; exact h⟩

theorem throw {e : Located} {F : α → α'} {Q : α → Prop} :
    L.Sim F Q (MonadExcept.throw e) (MonadExcept.throw (L.located e)) :=
  fun _ _ _ _ hst => ⟨hst, rfl, fun _ he => by cases he⟩

end Sim

variable {L}

/-- A name without `#` is its own relabelling. -/
theorem name_of_plainName {x : String} (h : Ty.PlainName x) : L.name x = x :=
  Placeholder.renumber_of_below _ (Placeholder.below_of_not_mem h)

/-- A type whose generics have no `#` is its own relabelling. -/
theorem ty_of_plainNames {t : Ty} (h : ∀ x ∈ t.genericNames, Ty.PlainName x) : L.ty t = t :=
  Ty.rename_eq_self t fun x hx => name_of_plainName (h x hx)

/-- A built-in type is its own relabelling. -/
theorem ty_builtin {b : Builtins} {t : Ty} (hb : b.Fixed)
    (ht : t ∈ [b.int, b.float, b.string, b.void, b.list]) : L.ty t = t :=
  ty_of_plainNames (hb t ht).2

section Steps

variable {σ : Setting} {st st' : Store}

theorem sim_lookupName (i : Nat) (x : String) :
    L.Sim (Option.map L.ty) (fun o => ∀ t ∈ o, t.Plain) (Check.lookupName i x)
      (Check.lookupName (L.frame i) (L.name x)) := by
  intro σ st st' _ hst
  simp only [Check.exec_lookupName]
  refine ⟨hst, by rw [hst.embeds.get]; rfl, fun o ho t ht => ?_⟩
  cases ho
  exact hst.plain.get ht

theorem sim_simp (i : Nat) {t : Ty} (ht : t.Plain) :
    L.Sim L.ty Ty.Plain (Check.simp i t) (Check.simp (L.frame i) (L.ty t)) := by
  intro σ st st' _ hst
  simp only [Check.exec_simp]
  refine ⟨hst, by rw [hst.embeds.simplify]; rfl, fun u hu => ?_⟩
  cases hu
  exact hst.plain.simplify i ht

theorem sim_bindName (i : Nat) (x : String) {t : Ty} (ht : t.Plain) :
    L.Sim id (fun _ => True) (Check.bindName i x t)
      (Check.bindName (L.frame i) (L.name x) (L.ty t)) := by
  intro σ st st' _ hst
  simp only [Check.exec_bindName]
  exact ⟨⟨hst.embeds.set i x t, hst.fresh_eq, hst.start_le, hst.plain.set i x ht⟩, rfl,
    fun _ _ => trivial⟩

theorem sim_openFrame (i : Nat) :
    L.Sim L.frame (fun _ => True) (Check.openFrame i) (Check.openFrame (L.frame i)) := by
  intro σ st st' _ hst
  simp only [Check.exec_openFrame]
  -- the new frame is the first after all others in both runs
  have hsize : st'.scopes.frames.size = L.frame st.scopes.frames.size := by
    have := hst.embeds.base_le
    unfold frame
    rw [if_neg (by omega), hst.embeds.size_eq]
  exact ⟨⟨(hst.embeds.child i).1, hst.fresh_eq, hst.start_le, hst.plain.child i⟩,
    by rw [hsize]; rfl, fun _ _ => trivial⟩

/-- **A fresh copy is the relabelled fresh copy.** The first run numbers it one past its
counter, above `start`, and the second `offset` further on. -/
theorem sim_freshGeneric (g : String) :
    L.Sim L.ty Ty.Plain (Check.freshGeneric g) (Check.freshGeneric (L.name g)) := by
  intro σ st st' _ hst
  simp only [Check.exec_freshGeneric]
  have hk : L.start < st.fresh + 1 := Nat.lt_succ_of_le hst.start_le
  refine ⟨⟨hst.embeds, by simp [hst.fresh_eq]; omega, by simp; omega, hst.plain⟩, ?_,
    fun u hu => by cases hu; trivial⟩
  simp only [except, ty_generic, name, Placeholder.renumber_fresh _ _ hk, hst.fresh_eq]
  rw [Nat.add_right_comm]

theorem sim_answer (o : Outcome) (pos : Nat) :
    L.Sim id (fun _ => True) (Check.answer o pos) (Check.answer (L.outcome o) pos) := by
  cases o with
  | holds p => exact Sim.pure trivial
  | fails => exact Sim.pure trivial
  | endless => exact Sim.throw

theorem sim_assignable (i : Nat) (e a : Ty) (pos : Nat) :
    L.Sim id (fun _ => True) (Check.assignable i e a pos)
      (Check.assignable (L.frame i) (L.ty e) (L.ty a) pos) := by
  intro σ st st' hσ hst
  have hv : L.Views ⟨st.scopes, i, σ.decls⟩ ⟨st'.scopes, L.frame i, σ.decls⟩ :=
    ⟨hst.embeds, rfl, rfl⟩
  have h :=
    sim_answer (L := L) ((View.mk st.scopes i σ.decls).assignable e a) pos σ st st' hσ hst
  unfold Check.assignable
  simp only [Check.exec_bind, Check.exec_read]
  rw [← hv.assignable e a] at h
  exact h

/-- Running a search that binds, side by side: the searches commute with relabelling. -/
theorem sim_binding {f : View → Ty → Ty → Outcome × Scopes} (i : Nat) (e a : Ty) (pos : Nat)
    (hf : ∀ v w, L.Views v w → (f w (L.ty e) (L.ty a)).1 = L.outcome (f v e a).1 ∧
      L.Embeds (f v e a).2 (f w (L.ty e) (L.ty a)).2)
    (hp : ∀ v : View, v.scopes.Plain → (f v e a).2.Plain) :
    L.Sim id (fun _ => True) (Check.binding f i e a pos)
      (Check.binding f (L.frame i) (L.ty e) (L.ty a) pos) := by
  intro σ st st' hσ hst
  have hv : L.Views ⟨st.scopes, i, σ.decls⟩ ⟨st'.scopes, L.frame i, σ.decls⟩ :=
    ⟨hst.embeds, rfl, rfl⟩
  obtain ⟨ho, hemb⟩ := hf _ _ hv
  rw [Check.exec_binding, Check.exec_binding, ho]
  exact sim_answer _ pos σ _ _ hσ
    ⟨hemb, hst.fresh_eq, hst.start_le, hp _ hst.plain⟩

theorem sim_unify (i : Nat) (e : Ty) {a : Ty} (ha : a.Plain) (pos : Nat) :
    L.Sim id (fun _ => True) (Check.unify i e a pos)
      (Check.unify (L.frame i) (L.ty e) (L.ty a) pos) :=
  sim_binding i e a pos (fun _ _ hv => hv.unify e a) fun v hv => (v.unify_plain hv e ha).1

theorem sim_accepts (i : Nat) (e : Ty) {a : Ty} (ha : a.Plain) (pos : Nat) :
    L.Sim id (fun _ => True) (Check.accepts i e a pos)
      (Check.accepts (L.frame i) (L.ty e) (L.ty a) pos) :=
  sim_binding i e a pos (fun _ _ hv => hv.accepts e a) fun v hv => v.accepts_plain hv e ha

end Steps

/-! ### Relabelling as a translation -/

variable (L)

/-- Relabelling as a translation of checking: names renumbered, frames moved, the setting
kept, related stores, plain types. -/
def translation : Check.Translation where
  name := L.name
  frame := L.frame
  setting := id
  Fits σ := σ.builtins.Fixed
  Stores := L.Stores
  Good := Ty.Plain

theorem except_eq {α β : Type} (F : α → β) (r : Except Located α) :
    L.except F r = L.translation.except F r := by
  cases r with
  | ok a => rfl
  | error e =>
    obtain ⟨f, pos⟩ := e
    cases f <;> rfl

theorem ctx_eq (ctx : Ctx) : L.ctx ctx = L.translation.ctx ctx := by
  cases ctx <;> rfl

mutual

theorem node_eq : (n : Node) → L.node n = Node.rename L.name n
  | .mk f sp t => by rw [node, Node.rename, form_eq f]; rfl

theorem form_eq : (f : Form) → L.form f = Form.rename L.name f
  | .str _ | .num _ | .ident _ | .pattern _ _ => rfl
  | .binary _ l r => by rw [form, Form.rename, node_eq l, node_eq r]
  | .unary _ o => by rw [form, Form.rename, node_eq o]
  | .func _ _ b => by rw [form, Form.rename, node_eq b]
  | .block xs => by rw [form, Form.rename, nodes_eq xs]
  | .call c as _ => by rw [form, Form.rename, node_eq c, nodes_eq as]; rfl
  | .cond c t none => by rw [form, Form.rename, node_eq c, node_eq t]
  | .cond c t (some e) => by rw [form, Form.rename, node_eq c, node_eq t, node_eq e]
  | .list xs => by rw [form, Form.rename, nodes_eq xs]
  | .matchOn v cs => by rw [form, Form.rename, node_eq v, nodes_eq cs]
  | .case p b => by rw [form, Form.rename, node_eq p, node_eq b]
  | .letIn as b => by rw [form, Form.rename, nodes_eq as, node_eq b]
  | .assign l v => by rw [form, Form.rename, node_eq l, node_eq v]
  | .construct _ as => by rw [form, Form.rename, nodes_eq as]

theorem nodes_eq : (ns : List Node) → L.nodes ns = Node.renameList L.name ns
  | [] => rfl
  | n :: ns => by rw [nodes, Node.renameList, node_eq n, nodes_eq ns]

end

variable {L}

theorem Sim.translation {α β : Type} {F : α → β} {Q : α → Prop} {m : Check α} {m' : Check β}
    (h : L.Sim F Q m m') : L.translation.Sim F Q m m' := fun σ st st' hσ hst => by
  obtain ⟨hst1, hres, hq⟩ := h σ st st' hσ hst
  exact ⟨hst1, hres.trans (L.except_eq F _), hq⟩

theorem Sim.of_translation {α β : Type} {F : α → β} {Q : α → Prop} {m : Check α} {m' : Check β}
    (h : L.translation.Sim F Q m m') : L.Sim F Q m m' := fun σ st st' hσ hst => by
  obtain ⟨hst1, hres, hq⟩ := h σ st st' hσ hst
  exact ⟨hst1, hres.trans (L.except_eq F _).symm, hq⟩

theorem plainName_append {x y : String} (hx : Ty.PlainName x) (hy : Ty.PlainName y) :
    Ty.PlainName (x ++ y) := by
  simp only [Ty.PlainName, String.toList_append, List.mem_append, not_or]
  exact ⟨hx, hy⟩

variable (L)

/-- **Relabelling is a translation of checking**: each step that reads or writes the scopes
is simulated by the same step relabelled, and the built-in types are their own relabelling. -/
theorem steps : L.translation.Steps where
  injective := L.name_injective
  lookupName i x := (sim_lookupName i x).translation
  simp i _ ht := (sim_simp i ht).translation
  bindName i x _ ht := (sim_bindName i x ht).translation
  openFrame i := (sim_openFrame i).translation
  freshGeneric g := (sim_freshGeneric g).translation
  assignable i e a pos := (sim_assignable i e a pos).translation
  unify i e _ ha pos := (sim_unify i e ha pos).translation
  accepts i e _ ha pos := (sim_accepts i e ha pos).translation
  inherited := Ty.plain_inherited
  generic _ := trivial
  owner _ := trivial
  fn_ret _ h hr := ⟨h.1, h.2.1, hr⟩
  ctor h := ⟨(Ty.plainList_iff _).1 h.1, h.2⟩
  dispatch h ht hk :=
    name_of_plainName (plainName_append h.1 (Ty.plainName_of_dispatchKey ht hk))
  list := name_of_plainName (by simp [Ty.PlainName])
  builtins _ hσ := (Builtins.rename_eq_self fun _ ht => ty_builtin hσ ht).symm
  builtins_good _ hσ t ht := (hσ t ht).1
  maxDepth _ := rfl
  live _ := rfl

variable {L}

/-- **A node checks alike in both runs**, its type and annotated tree relabelled. -/
theorem sim_typeOf (d env : Nat) (ctx : Ctx) (hctx : ctx.Plain) :
    (n : Node) → n.Named →
      L.Sim (fun r => (L.ty r.1, L.node r.2)) (fun r => r.1.Plain) (Check.typeOf d env ctx n)
        (Check.typeOf d (L.frame env) (L.ctx ctx) n) := fun n hn => by
  have hnode : L.node = Node.rename L.name := funext L.node_eq
  rw [hnode, L.ctx_eq]
  refine Sim.of_translation (L.steps.typeOf d env ctx (fun t h => ?_) n
    (Node.EveryName.mono (fun _ hx => name_of_plainName hx) n (Node.Named.everyName n hn)))
  subst h
  exact hctx

theorem sim_typeBlock (d scope : Nat) {last : Ty} (hlast : last.Plain) :
    (items : List Node) → Node.ListNamed items →
      L.Sim (fun r => (L.ty r.1, L.nodes r.2)) (fun r => r.1.Plain)
        (Check.typeBlock d scope last items) (Check.typeBlock d (L.frame scope) (L.ty last) items) :=
  fun items hn => by
    have hnodes : L.nodes = Node.renameList L.name := funext L.nodes_eq
    rw [hnodes]
    exact Sim.of_translation (L.steps.typeBlock d scope hlast items
      (Node.ListEveryName.mono (fun _ hx => name_of_plainName hx) items
        (Node.ListNamed.everyName items hn)))

end Relabel

end Verve
