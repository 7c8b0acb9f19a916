import Verve.Proofs.RenameScopes
import Verve.Proofs.Run

/-!
# Checking in step with a translation

Two runs of checking one node can differ in what stands around the node: which frames the
scopes hold, how the generics bound in them are named, how the built-in types are written. A
`Check.Translation` says how the second run stands to the first: its names are the first's
renamed by `name`, so its types are the first's renamed; its frames are the first's moved by
`frame`; it reads `setting σ` where the first reads a setting `σ` that `Fits`; and its store
stands to the first's as `Stores` says. `Check.Translation.Sim T F Q m m'` says that `m'` does
what `m` does, its value under `F` or its fault renamed, and leaves stores that stand so.

Checking is built from a few steps that read or write the scopes. A translation under which
each of them is simulated by the same step on translated arguments
(`Check.Translation.Steps`) simulates every step built from them, and, by induction on the
node, the whole check of a node (`Check.Translation.Steps.typeOf`), as long as the names the
node looks up and binds are their own translation.
-/

namespace Verve

/-! ### What a check reports, renamed -/

/-- An implementation a call reaches, its type renamed. -/
def Dispatch.rename (ρ : String → String) (d : Dispatch) : Dispatch := ⟨d.symbol, d.target.rename ρ⟩

mutual

/-- A checked node with every type it records renamed. -/
def Node.rename (ρ : String → String) : Node → Node
  | .mk f sp t => .mk (Form.rename ρ f) sp (t.map (Ty.rename ρ))

/-- `Node.rename` for a form. -/
def Form.rename (ρ : String → String) : Form → Form
  | .str v => .str v
  | .num l => .num l
  | .ident x => .ident x
  | .binary op l r => .binary op (Node.rename ρ l) (Node.rename ρ r)
  | .unary op o => .unary op (Node.rename ρ o)
  | .func x ps b => .func x ps (Node.rename ρ b)
  | .block xs => .block (Node.renameList ρ xs)
  | .call c as d => .call (Node.rename ρ c) (Node.renameList ρ as) (d.map (Dispatch.rename ρ))
  | .cond c t none => .cond (Node.rename ρ c) (Node.rename ρ t) none
  | .cond c t (some e) => .cond (Node.rename ρ c) (Node.rename ρ t) (some (Node.rename ρ e))
  | .list xs => .list (Node.renameList ρ xs)
  | .matchOn v cs => .matchOn (Node.rename ρ v) (Node.renameList ρ cs)
  | .case p b => .case (Node.rename ρ p) (Node.rename ρ b)
  | .letIn as b => .letIn (Node.renameList ρ as) (Node.rename ρ b)
  | .assign l v => .assign (Node.rename ρ l) (Node.rename ρ v)
  | .construct x as => .construct x (Node.renameList ρ as)
  | .pattern c bs => .pattern c bs

/-- `Node.rename` for every member of a list. -/
def Node.renameList (ρ : String → String) : List Node → List Node
  | [] => []
  | n :: ns => Node.rename ρ n :: Node.renameList ρ ns

end

/-- A fault with the types it reports renamed. -/
def Fault.rename (ρ : String → String) : Fault → Fault
  | .argumentType f e r p => .argumentType f (e.rename ρ) (r.rename ρ) p
  | .missingImplementation i t => .missingImplementation i (t.rename ρ)
  | .returnTypeMismatch e r => .returnTypeMismatch (e.rename ρ) (r.rename ρ)
  | .operandType s t => .operandType s (t.rename ρ)
  | .branchTypeMismatch a b => .branchTypeMismatch (a.rename ρ) (b.rename ρ)
  | .mixedListType f i => .mixedListType (f.rename ρ) (i.rename ρ)
  | .mixedMatchType f i => .mixedMatchType (f.rename ρ) (i.rename ρ)
  | .patternMismatch v c => .patternMismatch (v.rename ρ) c
  | f => f

/-- A located fault renamed; the position stays. -/
def Located.rename (ρ : String → String) (e : Located) : Located := ⟨e.fault.rename ρ, e.pos⟩

/-- The built-in types renamed. -/
def Builtins.rename (ρ : String → String) (b : Builtins) : Builtins :=
  ⟨b.int.rename ρ, b.float.rename ρ, b.string.rename ρ, b.void.rename ρ, b.list.rename ρ⟩

/-- Built-in types that are their own renaming. -/
theorem Builtins.rename_eq_self {ρ : String → String} {b : Builtins}
    (h : ∀ t ∈ [b.int, b.float, b.string, b.void, b.list], t.rename ρ = t) : b.rename ρ = b := by
  obtain ⟨i, f, s, v, l⟩ := b
  simp only [List.mem_cons, List.not_mem_nil, or_false, forall_eq_or_imp, forall_eq] at h
  obtain ⟨hi, hf, hs, hv, hl⟩ := h
  simp only [Builtins.rename, hi, hf, hs, hv, hl]

/-- The list type of a renamed element, in the renamed built-in types, is the renamed list
type. -/
theorem Builtins.listOf_rename (ρ : String → String) (b : Builtins) (t : Ty) :
    (b.rename ρ).listOf (t.rename ρ) = (b.listOf t).rename ρ := by
  simp [Builtins.listOf, Builtins.rename]

/-- The name the list type's parameter has: renamed along with the list type, as long as the
name it falls back to is kept. -/
theorem Builtins.listGeneric_rename {ρ : String → String} (hT : ρ "T" = "T") (b : Builtins) :
    (b.rename ρ).listGeneric = ρ b.listGeneric := by
  unfold Builtins.listGeneric
  simp only [Builtins.rename]
  cases b.list with
  | enum r =>
    cases hg : r.generics with
    | nil => simp [EnumRef.rename, hg, hT]
    | cons g gs => simp [EnumRef.rename, hg]
  | _ => simp [hT]

theorem Ty.eq_toTy_of_sig? {t : Ty} {f : Sig} (h : t.sig? = some f) : t = f.toTy := by
  cases t with
  | fn n ps r gs o =>
    simp only [Ty.sig?, Option.some.injEq] at h
    subst h
    rfl
  | _ => simp [Ty.sig?] at h

/-- A constructor's signature names no interface. -/
theorem Ty.owner_of_ctorSig? {t : Ty} {f : Sig} (h : t.ctorSig? = some f) : f.owner = none := by
  cases t with
  | ctor i n ps r gs =>
    simp only [Ty.ctorSig?, Option.some.injEq] at h
    subst h
    rfl
  | _ => simp [Ty.ctorSig?] at h

/-! ### The names a node reads -/

namespace Node

mutual

/-- `P` holds of every name the node looks up or binds: the names of variables, functions,
parameters, constructors and pattern bindings. -/
def EveryName (P : String → Prop) : Node → Prop
  | .mk f _ _ => FormEveryName P f

/-- `EveryName` of a node of this form. -/
def FormEveryName (P : String → Prop) : Form → Prop
  | .str _ | .num _ => True
  | .ident x => P x
  | .binary _ l r => EveryName P l ∧ EveryName P r
  | .unary _ o => EveryName P o
  | .func x ps b => P x ∧ (∀ q ∈ ps, P q.name) ∧ EveryName P b
  | .block xs | .list xs => ListEveryName P xs
  | .call c as _ => EveryName P c ∧ ListEveryName P as
  | .cond c t none => EveryName P c ∧ EveryName P t
  | .cond c t (some e) => EveryName P c ∧ EveryName P t ∧ EveryName P e
  | .matchOn v cs => EveryName P v ∧ ListEveryName P cs
  | .case p b => EveryName P p ∧ EveryName P b
  | .letIn as b => ListEveryName P as ∧ EveryName P b
  | .assign l v => EveryName P l ∧ EveryName P v
  | .construct x as => P x ∧ ListEveryName P as
  | .pattern c bs => P c ∧ ∀ q ∈ bs, P q.name

/-- `EveryName` of every node of the list. -/
def ListEveryName (P : String → Prop) : List Node → Prop
  | [] => True
  | n :: ns => EveryName P n ∧ ListEveryName P ns

end

theorem formEveryName_of_form {P : String → Prop} {n : Node} (h : n.EveryName P) {f : Form}
    (hf : n.form = f) : FormEveryName P f := by
  obtain ⟨g, sp, t⟩ := n
  cases hf
  exact h

section

variable {P Q : String → Prop}

mutual

/-- A weaker condition holds of every name of a node whenever a stronger one does. -/
theorem EveryName.mono (h : ∀ x, P x → Q x) : (n : Node) → n.EveryName P → n.EveryName Q
  | .mk f _ _, hn => FormEveryName.mono h f hn

theorem FormEveryName.mono (h : ∀ x, P x → Q x) :
    (f : Form) → FormEveryName P f → FormEveryName Q f
  | .str _, _ | .num _, _ => trivial
  | .ident x, hx => h x hx
  | .binary _ l r, hf => ⟨EveryName.mono h l hf.1, EveryName.mono h r hf.2⟩
  | .unary _ o, hf => EveryName.mono h o hf
  | .func x _ b, hf => ⟨h x hf.1, fun q hq => h q.name (hf.2.1 q hq), EveryName.mono h b hf.2.2⟩
  | .block xs, hf | .list xs, hf => ListEveryName.mono h xs hf
  | .call c as _, hf => ⟨EveryName.mono h c hf.1, ListEveryName.mono h as hf.2⟩
  | .cond c t none, hf => ⟨EveryName.mono h c hf.1, EveryName.mono h t hf.2⟩
  | .cond c t (some e), hf =>
    ⟨EveryName.mono h c hf.1, EveryName.mono h t hf.2.1, EveryName.mono h e hf.2.2⟩
  | .matchOn v cs, hf => ⟨EveryName.mono h v hf.1, ListEveryName.mono h cs hf.2⟩
  | .case p b, hf => ⟨EveryName.mono h p hf.1, EveryName.mono h b hf.2⟩
  | .letIn as b, hf => ⟨ListEveryName.mono h as hf.1, EveryName.mono h b hf.2⟩
  | .assign l v, hf => ⟨EveryName.mono h l hf.1, EveryName.mono h v hf.2⟩
  | .construct x as, hf => ⟨h x hf.1, ListEveryName.mono h as hf.2⟩
  | .pattern c _, hf => ⟨h c hf.1, fun q hq => h q.name (hf.2 q hq)⟩

theorem ListEveryName.mono (h : ∀ x, P x → Q x) :
    (ns : List Node) → ListEveryName P ns → ListEveryName Q ns
  | [], _ => trivial
  | n :: ns, hns => ⟨EveryName.mono h n hns.1, ListEveryName.mono h ns hns.2⟩

end

end

mutual

/-- The names a node looks up or binds, in the order `EveryName` visits them. -/
def names : Node → List String
  | .mk f _ _ => formNames f

/-- `names` of a node of this form. -/
def formNames : Form → List String
  | .str _ | .num _ => []
  | .ident x => [x]
  | .binary _ l r => names l ++ names r
  | .unary _ o => names o
  | .func x ps b => x :: ps.map (·.name) ++ names b
  | .block xs | .list xs => listNames xs
  | .call c as _ => names c ++ listNames as
  | .cond c t none => names c ++ names t
  | .cond c t (some e) => names c ++ names t ++ names e
  | .matchOn v cs => names v ++ listNames cs
  | .case p b => names p ++ names b
  | .letIn as b => listNames as ++ names b
  | .assign l v => names l ++ names v
  | .construct x as => x :: listNames as
  | .pattern c bs => c :: bs.map (·.name)

/-- `names` of the nodes of a list, one after another. -/
def listNames : List Node → List String
  | [] => []
  | n :: ns => names n ++ listNames ns

end

section

variable {P : String → Prop}

mutual

/-- A condition holds of every name a node reads exactly when it holds of its `names`. -/
theorem everyName_iff : (n : Node) → n.EveryName P ↔ ∀ x ∈ n.names, P x
  | .mk f _ _ => formEveryName_iff f

theorem formEveryName_iff : (f : Form) → FormEveryName P f ↔ ∀ x ∈ formNames f, P x
  | .str _ | .num _ => by simp [FormEveryName, formNames]
  | .ident _ => by simp [FormEveryName, formNames]
  | .binary _ l r => by
    simp only [FormEveryName, formNames, everyName_iff l, everyName_iff r, List.forall_mem_append]
  | .unary _ o => by simp only [FormEveryName, formNames, everyName_iff o]
  | .func x ps b => by
    simp only [FormEveryName, formNames, everyName_iff b, List.forall_mem_cons,
      List.forall_mem_append, List.forall_mem_map, and_assoc]
  | .block xs | .list xs => by simp only [FormEveryName, formNames, listEveryName_iff xs]
  | .call c as _ => by
    simp only [FormEveryName, formNames, everyName_iff c, listEveryName_iff as,
      List.forall_mem_append]
  | .cond c t none => by
    simp only [FormEveryName, formNames, everyName_iff c, everyName_iff t,
      List.forall_mem_append]
  | .cond c t (some e) => by
    simp only [FormEveryName, formNames, everyName_iff c, everyName_iff t, everyName_iff e,
      List.forall_mem_append, and_assoc]
  | .matchOn v cs => by
    simp only [FormEveryName, formNames, everyName_iff v, listEveryName_iff cs,
      List.forall_mem_append]
  | .case p b => by
    simp only [FormEveryName, formNames, everyName_iff p, everyName_iff b,
      List.forall_mem_append]
  | .letIn as b => by
    simp only [FormEveryName, formNames, listEveryName_iff as, everyName_iff b,
      List.forall_mem_append]
  | .assign l v => by
    simp only [FormEveryName, formNames, everyName_iff l, everyName_iff v,
      List.forall_mem_append]
  | .construct x as => by
    simp only [FormEveryName, formNames, listEveryName_iff as, List.forall_mem_cons]
  | .pattern c bs => by
    simp only [FormEveryName, formNames, List.forall_mem_cons, List.forall_mem_map]

theorem listEveryName_iff : (ns : List Node) → ListEveryName P ns ↔ ∀ x ∈ listNames ns, P x
  | [] => by simp [ListEveryName, listNames]
  | n :: ns => by
    simp only [ListEveryName, listNames, everyName_iff n, listEveryName_iff ns,
      List.forall_mem_append]

end

instance [DecidablePred P] (n : Node) : Decidable (n.EveryName P) :=
  decidable_of_iff _ (everyName_iff n).symm

end

end Node

/-! ### Translations and the runs they relate -/

namespace Check

/-- **How a second run of checking stands to a first.** Its names are the first's renamed by
`name`, its frames the first's moved by `frame`; it reads `setting σ` where the first reads a
setting `σ` that `Fits`, and its store stands to the first's as `Stores` says. `Good` is what
the first run keeps of every type it binds or gives. -/
structure Translation where
  name : String → String
  frame : Nat → Nat
  setting : Setting → Setting
  Fits : Setting → Prop
  Stores : Store → Store → Prop
  Good : Ty → Prop

namespace Translation

variable (T : Translation)

/-- A type of the first run as the second has it. -/
def ty (t : Ty) : Ty := t.rename T.name

/-- A signature of the first run as the second has it. -/
def sig (s : Sig) : Sig := s.rename T.name

/-- What a node's surroundings pass to it in the first run, as the second passes it. -/
def ctx : Ctx → Ctx
  | .plain => .plain
  | .scope f => .scope (T.frame f)
  | .subject t => .subject (T.ty t)

/-- The outcome of a step of the first run as the second has it: the value under `F`, or the
fault renamed. -/
def except {α β : Type} (F : α → β) : Except Located α → Except Located β
  | .ok a => .ok (F a)
  | .error e => .error (e.rename T.name)

/-- A widening of the first run as the second has it. -/
def widened : Except (Ty × Ty) Ty → Except (Ty × Ty) Ty
  | .ok t => .ok (T.ty t)
  | .error (a, b) => .error (T.ty a, T.ty b)

/-- The parameters and the result of a signature are `Good`. -/
def SigGood (f : Sig) : Prop := (∀ t ∈ f.params, T.Good t) ∧ T.Good f.ret

/-- **`m'` does what `m` does, translated by `T`.** Run from stores that stand as `T` says, in
a setting that fits and its translation, `m'` gives `m`'s value under `F` or `m`'s fault
renamed, and leaves stores that stand so; every value `m` gives satisfies `Q`. -/
def Sim {α β : Type} (F : α → β) (Q : α → Prop) (m : Check α) (m' : Check β) : Prop :=
  ∀ σ st st', T.Fits σ → T.Stores st st' →
    T.Stores (m.exec σ st).2 (m'.exec (T.setting σ) st').2 ∧
      (m'.exec (T.setting σ) st').1 = T.except F (m.exec σ st).1 ∧
      ∀ a, (m.exec σ st).1 = .ok a → Q a

@[simp] theorem ty_generic (n : String) : T.ty (.generic n) = .generic (T.name n) := rfl

@[simp] theorem ty_app (h : Ty) (as : List Ty) : T.ty (.app h as) = .app (T.ty h) (as.map T.ty) :=
  Ty.rename_app h as

@[simp] theorem sig_name (s : Sig) : (T.sig s).name = s.name := rfl

@[simp] theorem sig_params (s : Sig) : (T.sig s).params = s.params.map T.ty := rfl

@[simp] theorem sig_ret (s : Sig) : (T.sig s).ret = T.ty s.ret := rfl

@[simp] theorem sig_generics (s : Sig) : (T.sig s).generics = s.generics.map T.name := rfl

theorem sig?_ty (t : Ty) : (T.ty t).sig? = t.sig?.map T.sig := Ty.sig?_rename t

theorem ctorSig?_ty (t : Ty) : (T.ty t).ctorSig? = t.ctorSig?.map T.sig := Ty.ctorSig?_rename t

theorem liveOwner_sig (live : List Nat) (f : Sig) :
    Decls.liveOwner live (T.sig f).owner = (Decls.liveOwner live f.owner).map (·.rename T.name) := by
  cases h : f.owner <;> simp [Decls.liveOwner, sig, Sig.rename, h, Option.filter]

/-- The type of a constructor's values, for the translated constructor. -/
theorem owningType_sig (f : Sig) : Check.owningType (T.sig f) = T.ty (Check.owningType f) := by
  unfold Check.owningType
  rw [sig_ret]
  cases f.ret with
  | enum r =>
    simp only [ty, Ty.rename_enum, EnumRef.rename, List.isEmpty_map]
    split
    · rfl
    · simp [List.map_map, Function.comp_def, EnumRef.rename]
  | _ => rfl

theorem node_withTy {n : Node} (h : Form.rename T.name n.form = n.form) (t : Ty) :
    Node.rename T.name (n.withTy t) = n.withTy (T.ty t) := by
  obtain ⟨f, sp, _⟩ := n
  simp only [Node.form] at h
  simp [Node.withTy, Node.rename, Node.form, Node.span, h, ty]

/-- **The steps a translation must simulate**: every read and write of the scopes, on
translated arguments, and what checking needs of the translated setting and of `Good`. -/
structure Steps : Prop where
  injective : Function.Injective T.name
  lookupName : ∀ i x, T.Sim (Option.map T.ty) (fun o => ∀ t ∈ o, T.Good t)
    (Check.lookupName i x) (Check.lookupName (T.frame i) (T.name x))
  simp : ∀ i {t}, T.Good t → T.Sim T.ty T.Good (Check.simp i t) (Check.simp (T.frame i) (T.ty t))
  bindName : ∀ i x {t}, T.Good t → T.Sim id (fun _ => True) (Check.bindName i x t)
    (Check.bindName (T.frame i) (T.name x) (T.ty t))
  openFrame : ∀ i, T.Sim T.frame (fun _ => True) (Check.openFrame i) (Check.openFrame (T.frame i))
  freshGeneric : ∀ g, T.Sim T.ty T.Good (Check.freshGeneric g) (Check.freshGeneric (T.name g))
  assignable : ∀ i e a pos, T.Sim id (fun _ => True) (Check.assignable i e a pos)
    (Check.assignable (T.frame i) (T.ty e) (T.ty a) pos)
  unify : ∀ i e {a}, T.Good a → ∀ pos, T.Sim id (fun _ => True) (Check.unify i e a pos)
    (Check.unify (T.frame i) (T.ty e) (T.ty a) pos)
  accepts : ∀ i e {a}, T.Good a → ∀ pos, T.Sim id (fun _ => True) (Check.accepts i e a pos)
    (Check.accepts (T.frame i) (T.ty e) (T.ty a) pos)
  inherited : Ty.Inherited T.Good
  generic : ∀ g, T.Good (.generic g)
  /-- the interface a method belongs to is as good as the method -/
  owner : ∀ {n ps r gs o}, T.Good (.fn n ps r gs (some o)) → T.Good (.iface o)
  fn_ret : ∀ {n ps r gs o} r', T.Good (.fn n ps r gs o) → T.Good r' → T.Good (.fn n ps r' gs o)
  ctor : ∀ {i n ps r gs}, T.Good (.ctor i n ps r gs) → (∀ t ∈ ps, T.Good t) ∧ T.Good r
  /-- a method's name followed by the dispatch key of a type is kept -/
  dispatch : ∀ {n ps r gs o t k}, T.Good (.fn n ps r gs (some o)) → T.Good t →
    t.dispatchKey = some k → T.name (n ++ k) = n ++ k
  list : T.name "T" = "T"
  builtins : ∀ σ, T.Fits σ → (T.setting σ).builtins = σ.builtins.rename T.name
  builtins_good : ∀ σ, T.Fits σ →
    ∀ t ∈ [σ.builtins.int, σ.builtins.float, σ.builtins.string, σ.builtins.void, σ.builtins.list],
      T.Good t
  maxDepth : ∀ σ, (T.setting σ).maxDepth = σ.maxDepth
  live : ∀ σ, (T.setting σ).live = σ.live

namespace Sim

variable {T} {α α' β β' : Type}

theorem bind {m : Check α} {m' : Check α'} {f : α → Check β} {f' : α' → Check β'}
    {F : α → α'} {G : β → β'} {Q : α → Prop} {R : β → Prop} (hm : T.Sim F Q m m')
    (hf : ∀ a, Q a → T.Sim G R (f a) (f' (F a))) : T.Sim G R (m >>= f) (m' >>= f') := by
  intro σ st st' hσ hst
  obtain ⟨hst1, hres, hq⟩ := hm σ st st' hσ hst
  rw [Check.exec_bind, Check.exec_bind]
  rcases hA : m.exec σ st with ⟨r, st1⟩
  rcases hB : m'.exec (T.setting σ) st' with ⟨r', st1'⟩
  rw [hA, hB] at hst1
  rw [hA, hB] at hres
  cases r with
  | error e =>
    cases hres
    exact ⟨hst1, rfl, fun _ h => by cases h⟩
  | ok a =>
    cases hres
    exact hf a (hq a (by rw [hA])) σ st1 st1' hσ hst1

theorem pure {a : α} {F : α → α'} {Q : α → Prop} (h : Q a) :
    T.Sim F Q (Pure.pure a) (Pure.pure (F a)) :=
  fun _ _ _ _ hst => ⟨hst, rfl, fun _ he => by cases he; exact h⟩

/-- A value given on each side, the second the translation of the first. -/
theorem pure_eq {a : α} {b : α'} {F : α → α'} {Q : α → Prop} (hb : b = F a) (h : Q a) :
    T.Sim F Q (Pure.pure a) (Pure.pure b) :=
  hb ▸ pure h

theorem throw {e : Located} {F : α → α'} {Q : α → Prop} :
    T.Sim F Q (MonadExcept.throw e) (MonadExcept.throw (e.rename T.name)) :=
  fun _ _ _ _ hst => ⟨hst, rfl, fun _ he => by cases he⟩

/-- Nothing after a fault runs, on either side. -/
theorem throw_bind {e : Located} {f : α → Check β} {f' : α' → Check β'} {G : β → β'}
    {R : β → Prop} :
    T.Sim G R (MonadExcept.throw e >>= f) (MonadExcept.throw (e.rename T.name) >>= f') := by
  intro σ st st' _ hst
  rw [Check.exec_bind, Check.exec_bind, Check.exec_throw, Check.exec_throw]
  exact ⟨hst, rfl, fun _ h => by cases h⟩

/-- Each side reads its own setting: the second the translation of the first. -/
theorem read : T.Sim T.setting T.Fits MonadReader.read MonadReader.read :=
  fun _ _ _ hσ hst => ⟨hst, rfl, fun _ he => by cases he; exact hσ⟩

/-- A `for` loop over a list is simulated by the loop over its translation, when each round
is. -/
theorem forIn {γ γ' δ : Type} {l : List γ} {φ : γ → γ'} {b : δ}
    {f : γ → δ → Check (ForInStep δ)} {f' : γ' → δ → Check (ForInStep δ)}
    (hf : ∀ x ∈ l, ∀ b, T.Sim id (fun _ => True) (f x b) (f' (φ x) b)) :
    T.Sim id (fun _ => True) (ForIn.forIn l b f) (ForIn.forIn (l.map φ) b f') := by
  induction l generalizing b with
  | nil => exact pure trivial
  | cons x l ih =>
    rw [List.forIn_cons, List.map_cons, List.forIn_cons]
    refine bind (hf x List.mem_cons_self b) fun r _ => ?_
    cases r with
    | done b' => exact pure trivial
    | yield b' => exact ih (fun y hy => hf y (List.mem_cons_of_mem _ hy))

/-- Mapping a step over a list is simulated by mapping over its translation. -/
theorem mapM {γ γ' : Type} {l : List γ} {φ : γ → γ'} {f : γ → Check α} {f' : γ' → Check α'}
    {F : α → α'} {Q : α → Prop} (hf : ∀ x ∈ l, T.Sim F Q (f x) (f' (φ x))) :
    T.Sim (List.map F) (∀ a ∈ ·, Q a) (l.mapM f) ((l.map φ).mapM f') := by
  induction l with
  | nil => exact pure fun _ h => absurd h List.not_mem_nil
  | cons x l ih =>
    rw [List.mapM_cons, List.map_cons, List.mapM_cons]
    refine bind (hf x List.mem_cons_self) fun a ha => ?_
    refine bind (ih fun y hy => hf y (List.mem_cons_of_mem _ hy)) fun as has => ?_
    exact pure fun b hb => by
      rcases List.mem_cons.1 hb with rfl | hb
      · exact ha
      · exact has b hb

end Sim

namespace Steps

variable {T} (hT : T.Steps)
include hT

/-! #### Steps built from the simulated ones -/

/-- A name that is its own translation is looked up under itself in both runs. -/
theorem lookupName_self (i : Nat) {x : String} (hx : T.name x = x) :
    T.Sim (Option.map T.ty) (fun o => ∀ t ∈ o, T.Good t) (Check.lookupName i x)
      (Check.lookupName (T.frame i) x) := by
  have h := hT.lookupName i x
  rwa [hx] at h

/-- A name that is its own translation is bound under itself in both runs. -/
theorem bindName_self (i : Nat) {x : String} (hx : T.name x = x) {t : Ty} (ht : T.Good t) :
    T.Sim id (fun _ => True) (Check.bindName i x t) (Check.bindName (T.frame i) x (T.ty t)) := by
  have h := hT.bindName i x ht
  rwa [hx] at h

theorem isGenericNamed_ty (n : String) (b : Ty) :
    (T.ty b).isGenericNamed (T.name n) = b.isGenericNamed n :=
  Ty.isGenericNamed_rename hT.injective n b

theorem listGeneric {σ : Setting} (hσ : T.Fits σ) :
    (T.setting σ).builtins.listGeneric = T.name σ.builtins.listGeneric := by
  rw [hT.builtins σ hσ, Builtins.listGeneric_rename hT.list]

theorem listOf_good {σ : Setting} (hσ : T.Fits σ) {t : Ty} (ht : T.Good t) :
    T.Good (σ.builtins.listOf t) :=
  (hT.inherited.app _ _).2 ⟨hT.builtins_good σ hσ _ (by simp), fun u hu => by
    rw [List.mem_singleton.1 hu]
    exact ht⟩

/-- The signature of a `Good` constructor is `Good`. -/
theorem sigGood_of_ctorSig? {t : Ty} (ht : T.Good t) {f : Sig} (h : t.ctorSig? = some f) :
    T.SigGood f := by
  cases t with
  | ctor i n ps r gs =>
    simp only [Ty.ctorSig?, Option.some.injEq] at h
    subst h
    exact hT.ctor ht
  | _ => simp [Ty.ctorSig?] at h

theorem owningType_good {f : Sig} (hf : T.Good f.ret) : T.Good (Check.owningType f) := by
  unfold Check.owningType
  split
  · split
    · exact hf
    · refine (hT.inherited.app _ _).2 ⟨hf, fun t ht => ?_⟩
      obtain ⟨g, -, rfl⟩ := List.mem_map.1 ht
      exact hT.generic g
  · exact hf

/-- The interface of a `Good` function type is `Good`. -/
theorem owner_good {f : Sig} (hf : T.Good f.toTy) : ∀ o ∈ f.owner, T.Good (.iface o) := by
  intro o ho
  obtain ⟨n, ps, r, gs, owner⟩ := f
  cases ho
  exact hT.owner hf

theorem installGenerics (scope : Nat) {f : Sig} (ho : ∀ o ∈ f.owner, T.Good (.iface o)) :
    T.Sim id (fun _ => True) (Check.installGenerics scope f)
      (Check.installGenerics (T.frame scope) (T.sig f)) := by
  unfold Check.installGenerics
  refine Sim.bind (Sim.forIn fun g _ _ =>
    Sim.bind (hT.bindName scope g (hT.generic g)) fun _ _ => Sim.pure trivial)
    fun _ _ => Sim.bind Sim.read fun σ _ => ?_
  rw [hT.live, liveOwner_sig]
  cases hl : Decls.liveOwner σ.live f.owner with
  | none => exact Sim.pure trivial
  | some r =>
    -- only the signature's own interface is live
    have hr : r ∈ f.owner := (Option.filter_eq_some_iff.1 hl).1
    exact hT.bindName scope r.generic (ho r hr)

theorem closeGenerics (gs : List String) (scope : Nat) :
    T.Sim id (fun _ => True) (Check.closeGenerics gs scope)
      (Check.closeGenerics (gs.map T.name) (T.frame scope)) := by
  unfold Check.closeGenerics
  refine Sim.bind (Sim.forIn fun g _ _ =>
    Sim.bind (hT.simp scope (hT.generic g)) fun t _ => ?_) fun _ _ => Sim.pure trivial
  simp only [hT.isGenericNamed_ty]
  by_cases hg : t.isGenericNamed g = true
  · simp only [hg, ↓reduceIte]
    exact Sim.bind (hT.freshGeneric g) fun u hu =>
      Sim.bind (hT.bindName scope g hu) fun _ _ => Sim.pure trivial
  · simp only [hg]
    exact Sim.pure trivial

theorem widen (env : Nat) {cur : Option Ty} (hc : ∀ c ∈ cur, T.Good c) {next : Ty}
    (hn : T.Good next) (pos : Nat) :
    T.Sim T.widened (fun r => ∀ t, r = .ok t → T.Good t) (Check.widen env cur next pos)
      (Check.widen (T.frame env) (cur.map T.ty) (T.ty next) pos) := by
  unfold Check.widen
  cases cur with
  | none => exact Sim.pure fun t ht => by cases ht; exact hn
  | some c =>
    have hc' : T.Good c := hc c rfl
    -- each side tries the current type first, then the next one, in trial frames
    refine Sim.bind (hT.openFrame env) fun trial _ => ?_
    refine Sim.bind (hT.accepts trial c hn pos) fun b _ => ?_
    cases b with
    | true =>
      exact Sim.bind (hT.simp trial hc') fun t ht => Sim.pure fun u hu => by cases hu; exact ht
    | false =>
      refine Sim.bind (hT.openFrame env) fun trial' _ => ?_
      refine Sim.bind (hT.accepts trial' next hc' pos) fun b' _ => ?_
      cases b' with
      | true =>
        exact Sim.bind (hT.simp trial' hn) fun t ht => Sim.pure fun u hu => by cases hu; exact ht
      | false => exact Sim.pure fun _ h => by cases h

/-- Looking a name that is its own translation up for a constructor, side by side. -/
theorem lookupCtor (env : Nat) {x : String} (hx : T.name x = x) (pos : Nat) :
    T.Sim T.sig T.SigGood (Check.lookupCtor env x pos) (Check.lookupCtor (T.frame env) x pos) := by
  unfold Check.lookupCtor
  refine Sim.bind (hT.lookupName_self env hx) fun o ho => ?_
  cases o with
  | none => exact Sim.throw
  | some t =>
    simp only [Option.map_some, Option.bind_some, ctorSig?_ty]
    cases hc : t.ctorSig? with
    | none => exact Sim.throw
    | some c => exact Sim.pure (hT.sigGood_of_ctorSig? (ho t rfl) hc)

theorem bindPattern {p : Node} {c : String} {bs : List Binding} (hp : p.form = .pattern c bs)
    (hbs : ∀ b ∈ bs, T.name b.name = b.name) {csig : Sig} (hc : T.SigGood csig)
    {value : Option Ty} (hv : ∀ v ∈ value, T.Good v) (scope : Nat) :
    T.Sim (Node.rename T.name) (fun _ => True) (Check.bindPattern p csig value scope)
      (Check.bindPattern p (T.sig csig) (value.map T.ty) (T.frame scope)) := by
  unfold Check.bindPattern
  rw [hp]
  dsimp only
  simp only [sig_params, List.length_map, sig_name, sig_generics]
  by_cases hlen : bs.length ≠ csig.params.length
  · rw [if_pos hlen, if_pos hlen]
    exact Sim.throw_bind
  rw [if_neg hlen, if_neg hlen]
  -- the constructor's generics go to a frame of their own, the pattern's names to `scope`
  have hnames : ∀ cs, T.Sim id (fun _ => True)
      (forIn (bs.zip csig.params) PUnit.unit fun x _ => do
        Check.bindName scope x.1.name (← Check.simp cs x.2)
        pure (ForInStep.yield PUnit.unit))
      (forIn (bs.zip (csig.params.map T.ty)) PUnit.unit fun x _ => do
        Check.bindName (T.frame scope) x.1.name (← Check.simp (T.frame cs) x.2)
        pure (ForInStep.yield PUnit.unit)) := by
    intro cs
    rw [List.zip_map_right]
    refine Sim.forIn fun x hx _ => ?_
    obtain ⟨hb, hparam⟩ := List.of_mem_zip hx
    refine Sim.bind (hT.simp cs (hc.1 _ hparam)) fun t ht => ?_
    exact Sim.bind (hT.bindName_self scope (hbs _ hb) ht) fun _ _ => Sim.pure trivial
  have howner := hT.owningType_good hc.2
  refine Sim.bind (hT.openFrame scope) fun cs _ => ?_
  refine Sim.bind (Sim.forIn fun g _ _ =>
    Sim.bind (hT.bindName cs g (hT.generic g)) fun _ _ => Sim.pure trivial)
    fun _ _ => ?_
  rw [owningType_sig]
  cases value with
  | none =>
    refine Sim.bind (hT.closeGenerics _ cs) fun _ _ => Sim.bind (hnames cs) fun _ _ => ?_
    refine Sim.bind (hT.simp cs howner) fun t _ => ?_
    rw [← node_withTy T (by rw [hp]; rfl)]
    exact Sim.pure trivial
  | some v =>
    refine Sim.bind (hT.unify cs _ (hv v rfl) _) fun _ _ => ?_
    refine Sim.bind (hT.closeGenerics _ cs) fun _ _ => Sim.bind (hnames cs) fun _ _ => ?_
    refine Sim.bind (hT.simp cs howner) fun t _ => ?_
    rw [← node_withTy T (by rw [hp]; rfl)]
    exact Sim.pure trivial

/-- Opening a call, side by side; a call that opens has one argument for each parameter. -/
theorem openCall (env : Nat) {f : Sig} (ho : ∀ o ∈ f.owner, T.Good (.iface o)) (loc count : Nat) :
    T.Sim T.frame (fun _ => count = f.params.length) (Check.openCall env f loc count)
      (Check.openCall (T.frame env) (T.sig f) loc count) := by
  unfold Check.openCall
  dsimp only
  simp only [sig_params, List.length_map, sig_name]
  by_cases hc : count ≠ f.params.length
  · rw [if_pos hc, if_pos hc]
    exact Sim.throw_bind
  rw [if_neg hc, if_neg hc]
  exact Sim.bind (hT.openFrame env) fun scope _ =>
    Sim.bind (hT.installGenerics scope ho) fun _ _ => Sim.pure (not_not.1 hc)

theorem closeCall {f : Sig} (hf : T.Good f.ret) (scope : Nat) :
    T.Sim T.ty T.Good (Check.closeCall f scope) (Check.closeCall (T.sig f) (T.frame scope)) := by
  unfold Check.closeCall
  refine Sim.bind (hT.closeGenerics f.generics scope) fun _ _ => ?_
  rw [sig_ret]
  cases h : f.ret with
  | enum r =>
    rw [h] at hf
    simp only [ty, Ty.rename_enum, EnumRef.rename, List.isEmpty_map]
    split
    · exact hT.simp scope hf
    · -- an applied enum: each of its generics as the call's frame binds it
      refine Sim.bind (Sim.mapM (φ := T.name) fun g _ => hT.simp scope (hT.generic g))
        fun ts hts => Sim.pure_eq (by rw [ty_app]; rfl) ((hT.inherited.app _ _).2 ⟨hf, hts⟩)
  | _ => exact hT.simp scope (h ▸ hf)

/-- **A call dispatches alike.** The symbol is the method's name followed by a dispatch key,
which the translation keeps, and the implementation found is renamed. -/
theorem dispatchOf (env scope : Nat) {f : Sig} (hf : T.Good f.toTy) :
    T.Sim (Option.map (Dispatch.rename T.name)) (fun _ => True) (Check.dispatchOf env scope f)
      (Check.dispatchOf (T.frame env) (T.frame scope) (T.sig f)) := by
  unfold Check.dispatchOf
  refine Sim.bind Sim.read fun σ _ => ?_
  rw [hT.live, liveOwner_sig]
  cases ho : Decls.liveOwner σ.live f.owner with
  | none => exact Sim.pure trivial
  | some r =>
    -- only a method of an interface dispatches
    obtain ⟨o, hown⟩ : ∃ o, f.owner = some o := by
      cases h : f.owner with
      | none => simp [Decls.liveOwner, h] at ho
      | some o => exact ⟨o, rfl⟩
    have hmethod : T.Good (.fn f.name f.params f.ret f.generics (some o)) := hown ▸ hf
    refine Sim.bind (hT.simp scope (hT.generic r.generic)) fun t ht => ?_
    simp only [ty, Ty.dispatchKey_rename]
    cases hk : t.dispatchKey with
    | none => exact Sim.pure trivial
    | some k =>
      have hl := hT.lookupName env (f.name ++ k)
      rw [hT.dispatch hmethod ht hk] at hl
      refine Sim.bind hl fun o _ => ?_
      cases o with
      | none => exact Sim.pure trivial
      | some u =>
        cases u <;> exact Sim.pure trivial

/-! #### Checking a node -/

-- `typeBlock` and `typeAssignments` use the steps only through the other members of the block
set_option linter.unusedSectionVars false in
mutual

/-- **Checking a node is simulated by checking it in the translated run**, as long as the names
it reads are their own translation: the type it is given is translated, and so is the checked
node. The induction is on the node, one case per form. -/
theorem typeOf (d env : Nat) (ctx : Ctx) (hctx : ∀ t, ctx = .subject t → T.Good t) :
    (n : Node) → n.EveryName (fun x => T.name x = x) →
      T.Sim (fun r => (T.ty r.1, Node.rename T.name r.2)) (fun r => T.Good r.1)
        (Check.typeOf d env ctx n) (Check.typeOf d (T.frame env) (T.ctx ctx) n)
  | .mk f sp _, hn => by
    unfold Check.typeOf
    refine Sim.bind Sim.read fun σ _ => ?_
    rw [hT.maxDepth]
    by_cases hmax : σ.maxDepth < d + 1
    · rw [if_pos hmax, if_pos hmax]
      exact Sim.throw_bind
    rw [if_neg hmax, if_neg hmax]
    exact Sim.bind (inferForm (d + 1) env ctx hctx sp f hn) fun _ hr => Sim.pure hr

theorem inferForm (d env : Nat) (ctx : Ctx) (hctx : ∀ t, ctx = .subject t → T.Good t)
    (sp : Span) :
    (f : Form) → Node.FormEveryName (fun x => T.name x = x) f →
      T.Sim (fun r => (T.ty r.1, Form.rename T.name r.2)) (fun r => T.Good r.1)
        (Check.inferForm d env ctx sp f) (Check.inferForm d (T.frame env) (T.ctx ctx) sp f)
  | .str _, _ => by
    unfold Check.inferForm
    exact Sim.bind Sim.read fun σ hσ =>
      Sim.pure_eq (by rw [hT.builtins σ hσ]; rfl) (hT.builtins_good σ hσ _ (by simp))
  | .num l, _ => by
    unfold Check.inferForm
    refine Sim.bind Sim.read fun σ hσ => ?_
    refine Sim.pure_eq (by rw [hT.builtins σ hσ]; cases l.isFloat <;> rfl) ?_
    split
    · exact hT.builtins_good σ hσ _ (by simp)
    · exact hT.builtins_good σ hσ _ (by simp)
  | .ident x, hx => by
    unfold Check.inferForm
    refine Sim.bind (hT.lookupName_self env hx) fun o ho => ?_
    cases o with
    | none => exact Sim.throw
    | some t => exact Sim.pure (ho t rfl)
  | .binary op l r, hn => by
    unfold Check.inferForm
    refine Sim.bind Sim.read fun σ hσ => ?_
    -- both operands are checked against `Int`, as each run writes it
    have hint : (T.setting σ).builtins.int = T.ty σ.builtins.int := by
      rw [hT.builtins σ hσ]
      rfl
    refine Sim.bind (typeOf d env .plain nofun l hn.1) fun ⟨lt, l'⟩ hlt => ?_
    refine Sim.bind (hT.simp env hlt) fun lt hlt => ?_
    have hl := hT.assignable env σ.builtins.int lt l.span.start
    rw [← hint] at hl
    refine Sim.bind hl fun bl _ => ?_
    dsimp only [id]
    cases bl
    · exact Sim.throw_bind
    refine Sim.bind (typeOf d env .plain nofun r hn.2) fun ⟨rt, r'⟩ hrt => ?_
    refine Sim.bind (hT.simp env hrt) fun rt hrt => ?_
    have hr := hT.assignable env σ.builtins.int rt r.span.start
    rw [← hint] at hr
    refine Sim.bind hr fun br _ => ?_
    dsimp only [id]
    cases br
    · exact Sim.throw_bind
    exact Sim.pure_eq (by rw [hint]; rfl) (hT.builtins_good σ hσ _ (by simp))
  | .unary op o, hn => by
    unfold Check.inferForm
    refine Sim.bind (typeOf d env .plain nofun o hn) fun _ _ => ?_
    exact Sim.bind Sim.read fun σ hσ =>
      Sim.pure_eq (by rw [hT.builtins σ hσ]; rfl) (hT.builtins_good σ hσ _ (by simp))
  | .func x ps body, hn => by
    unfold Check.inferForm
    refine Sim.bind (hT.lookupName_self env hn.1) fun o ho => ?_
    extract_lets jp jp'
    have hk : ∀ sig : Sig, T.Good sig.toTy →
        T.Sim (fun r => (T.ty r.1, Form.rename T.name r.2)) (fun r => T.Good r.1) (jp sig)
          (jp' (T.sig sig)) := fun sig hsig => by
      obtain ⟨hps, hret⟩ := hT.inherited.fn _ _ _ _ _ hsig
      dsimp only [jp, jp']
      simp only [sig_params, List.length_map]
      by_cases hlen : sig.params.length ≠ ps.length
      · rw [if_pos hlen, if_pos hlen]
        exact Sim.throw_bind
      rw [if_neg hlen, if_neg hlen]
      -- the parameters and the body go to the function's own frame
      refine Sim.bind (hT.openFrame env) fun scope _ => ?_
      refine Sim.bind (hT.installGenerics scope (hT.owner_good hsig)) fun _ _ => ?_
      rw [List.zip_map_right]
      refine Sim.bind (Sim.forIn fun ⟨q, t⟩ hq _ => ?_) fun _ _ => ?_
      · obtain ⟨hqs, ht⟩ := List.of_mem_zip hq
        exact Sim.bind (hT.bindName_self scope (hn.2.1 q hqs) (hps t ht)) fun _ _ =>
          Sim.pure trivial
      refine Sim.bind (typeOf d scope .plain nofun body hn.2.2) fun ⟨bt, body'⟩ hbt => ?_
      refine Sim.bind (hT.simp scope hret) fun expected _ => ?_
      refine Sim.bind (hT.simp scope hbt) fun actual hactual => ?_
      refine Sim.bind (hT.accepts scope expected hactual body.span.start) fun b _ => ?_
      dsimp only [id]
      cases b
      · exact Sim.throw_bind
      exact Sim.pure_eq (by simp [Sig.toTy, Form.rename, Translation.sig, Sig.rename, ty])
        (hT.fn_ret _ hsig hactual)
    cases o with
    | none => exact Sim.throw_bind
    | some t =>
      simp only [Option.map_some, Option.bind_some, sig?_ty]
      cases hs : t.sig? with
      | none => exact Sim.throw_bind
      | some sig => exact Sim.bind (Sim.pure (Ty.eq_toTy_of_sig? hs ▸ ho t rfl)) hk
  | .block items, hn => by
    unfold Check.inferForm
    -- one join point serves both runs: the items' check does not read the context
    extract_lets jp
    have hk : ∀ scope : Nat, T.Sim (fun r => (T.ty r.1, Form.rename T.name r.2))
        (fun r => T.Good r.1) (jp scope) (jp (T.frame scope)) := fun scope => by
      refine Sim.bind Sim.read fun σ hσ => ?_
      have hvoid : (T.setting σ).builtins.void = T.ty σ.builtins.void := by
        rw [hT.builtins σ hσ]
        rfl
      have hb := typeBlock d scope (hT.builtins_good σ hσ σ.builtins.void (by simp)) items hn
      rw [← hvoid] at hb
      exact Sim.bind hb fun _ hr => Sim.pure hr
    -- the items go to the frame a `let` hands over, or to a new one
    cases ctx with
    | scope j =>
      exact Sim.bind (Sim.pure (F := T.frame) (Q := fun _ => True) trivial) fun s _ => hk s
    | plain => exact Sim.bind (hT.openFrame env) fun s _ => hk s
    | subject _ => exact Sim.bind (hT.openFrame env) fun s _ => hk s
  | .call callee args _, hn => by
    unfold Check.inferForm
    refine Sim.bind (typeOf d env .plain nofun callee hn.1) fun ⟨ct, callee'⟩ hct => ?_
    refine Sim.bind (hT.simp env hct) fun ct hct => ?_
    extract_lets jp jp'
    have hk : ∀ f : Sig, T.Good f.toTy →
        T.Sim (fun r => (T.ty r.1, Form.rename T.name r.2)) (fun r => T.Good r.1) (jp f)
          (jp' (T.sig f)) := fun f hf => by
      obtain ⟨hps, hret⟩ := hT.inherited.fn _ _ _ _ _ hf
      refine Sim.bind (hT.openCall env (hT.owner_good hf) _ _) fun scope hlen => ?_
      refine Sim.bind (typeArgs d env scope f 1 args f.params hps hlen hn.2) fun _ _ => ?_
      refine Sim.bind (hT.closeCall hret scope) fun ret hret => ?_
      refine Sim.bind (hT.dispatchOf env scope hf) fun _ _ => ?_
      exact Sim.bind (hT.simp env hret) fun _ ht => Sim.pure ht
    rw [sig?_ty]
    cases hs : ct.sig? with
    | none => exact Sim.throw_bind
    | some f => exact Sim.bind (Sim.pure (Ty.eq_toTy_of_sig? hs ▸ hct)) hk
  | .cond c t none, hn => by
    unfold Check.inferForm
    refine Sim.bind (typeOf d env .plain nofun c hn.1) fun _ _ => ?_
    refine Sim.bind (typeOf d env .plain nofun t hn.2) fun ⟨tt, t'⟩ htt => ?_
    exact Sim.bind (hT.simp env htt) fun _ ht => Sim.pure ht
  | .cond c t (some e), hn => by
    unfold Check.inferForm
    refine Sim.bind (typeOf d env .plain nofun c hn.1) fun _ _ => ?_
    refine Sim.bind (typeOf d env .plain nofun t hn.2.1) fun ⟨tt, t'⟩ htt => ?_
    refine Sim.bind (hT.simp env htt) fun it hit => ?_
    refine Sim.bind (typeOf d env .plain nofun e hn.2.2) fun ⟨et, e'⟩ het => ?_
    refine Sim.bind (hT.simp env het) fun et het => ?_
    have hcur : ∀ c ∈ some it, T.Good c := fun _ h => by cases h; exact hit
    refine Sim.bind (hT.widen env hcur het sp.start) fun w hw => ?_
    cases w with
    | ok w => exact Sim.pure (hw w rfl)
    | error p =>
      cases p
      exact Sim.throw
  | .list items, hn => by
    unfold Check.inferForm
    refine Sim.bind (typeItems d env none nofun items hn) fun ⟨elem, items'⟩ helem => ?_
    dsimp -zeta only
    extract_lets jp jp'
    have hk : ∀ t : Ty, T.Good t → T.Sim (fun r => (T.ty r.1, Form.rename T.name r.2))
        (fun r => T.Good r.1) (jp t) (jp' (T.ty t)) := fun t ht =>
      Sim.bind Sim.read fun σ hσ =>
        Sim.pure_eq (by rw [hT.builtins σ hσ]; exact Prod.ext (Builtins.listOf_rename _ _ t) rfl)
          (hT.listOf_good hσ ht)
    cases elem with
    | some t => exact Sim.bind (hT.simp env (helem t rfl)) hk
    | none =>
      refine Sim.bind Sim.read fun σ hσ => ?_
      have hg := hT.freshGeneric σ.builtins.listGeneric
      rw [← hT.listGeneric hσ] at hg
      exact Sim.bind hg hk
  | .matchOn value cases, hn => by
    unfold Check.inferForm
    refine Sim.bind (typeOf d env .plain nofun value hn.1) fun ⟨vt, value'⟩ hvt => ?_
    refine Sim.bind (hT.simp env hvt) fun subject hsub => ?_
    dsimp only
    by_cases he : cases.isEmpty = true
    · rw [if_pos he, if_pos he]
      exact Sim.throw_bind
    rw [if_neg he, if_neg he]
    refine Sim.bind (typeCases d env hsub none nofun cases hn.2)
      fun ⟨result, cases'⟩ hres => ?_
    dsimp only
    cases result with
    | some t => exact Sim.bind (hT.simp env (hres t rfl)) fun _ ht => Sim.pure ht
    | none =>
      refine Sim.bind Sim.read fun σ hσ => ?_
      exact Sim.bind (Sim.pure_eq (F := T.ty) (by rw [hT.builtins σ hσ]; rfl)
        (hT.builtins_good σ hσ _ (by simp))) fun _ ht => Sim.pure ht
  | .case p body, hn => by
    unfold Check.inferForm
    cases hp : p.form with
    | pattern c bs =>
      obtain ⟨hc, hbs⟩ : Node.FormEveryName (fun x => T.name x = x) (.pattern c bs) :=
        Node.formEveryName_of_form hn.1 hp
      refine Sim.bind (hT.lookupCtor env hc p.span.start) fun csig hcsig => ?_
      refine Sim.bind (hT.openFrame env) fun scope _ => ?_
      -- a case binds its pattern against the subject of its `match`
      have hb : ∀ value : Option Ty, (∀ v ∈ value, T.Good v) →
          T.Sim (fun r => (T.ty r.1, Form.rename T.name r.2)) (fun r => T.Good r.1)
            (do
              let p' ← Check.bindPattern p csig value scope
              let (bt, body') ← Check.typeOf d scope .plain body
              pure (bt, .case p' body'))
            (do
              let p' ← Check.bindPattern p (T.sig csig) (value.map T.ty) (T.frame scope)
              let (bt, body') ← Check.typeOf d (T.frame scope) .plain body
              pure (bt, .case p' body')) := fun value hv =>
        Sim.bind (hT.bindPattern hp hbs hcsig hv scope) fun _ _ =>
          Sim.bind (typeOf d scope .plain nofun body hn.2) fun _ hr => Sim.pure hr
      cases ctx with
      | subject t => exact hb (some t) fun _ h => by cases h; exact hctx t rfl
      | plain => exact hb none nofun
      | scope _ => exact hb none nofun
    | _ => exact Sim.throw
  | .letIn assignments body, hn => by
    unfold Check.inferForm
    refine Sim.bind (hT.openFrame env) fun scope _ => ?_
    refine Sim.bind (typeAssignments d scope assignments hn.1) fun _ _ => ?_
    exact Sim.bind (typeOf d scope (.scope scope) nofun body hn.2) fun _ hr => Sim.pure hr
  | .assign left value, hn => by
    unfold Check.inferForm
    refine Sim.bind (typeOf d env .plain nofun value hn.2) fun ⟨vt, value'⟩ hvt => ?_
    refine Sim.bind (hT.simp env hvt) fun v hv => ?_
    dsimp only
    cases hl : left.form with
    | ident x =>
      have hx : T.name x = x := Node.formEveryName_of_form hn.1 hl
      refine Sim.bind (hT.bindName_self env hx hv) fun _ _ => ?_
      rw [← node_withTy T (by rw [hl]; rfl)]
      exact Sim.pure hv
    | pattern c bs =>
      obtain ⟨hc, hbs⟩ : Node.FormEveryName (fun x => T.name x = x) (.pattern c bs) :=
        Node.formEveryName_of_form hn.1 hl
      refine Sim.bind (hT.lookupCtor env hc left.span.start) fun csig hcsig => ?_
      rw [owningType_sig]
      refine Sim.bind (hT.assignable env v (Check.owningType csig) left.span.start) fun b _ => ?_
      dsimp only [id]
      cases b
      · exact Sim.throw_bind
      have hvalue : ∀ w ∈ some v, T.Good w := fun _ h => by cases h; exact hv
      exact Sim.bind (hT.bindPattern hl hbs hcsig hvalue env) fun _ _ => Sim.pure hv
    | _ => exact Sim.throw
  | .construct x args, hn => by
    unfold Check.inferForm
    refine Sim.bind (hT.lookupName_self env hn.1) fun o ho => ?_
    extract_lets jp jp'
    have hk : ∀ csig : Sig, T.SigGood csig ∧ csig.owner = none →
        T.Sim (fun r => (T.ty r.1, Form.rename T.name r.2)) (fun r => T.Good r.1) (jp csig)
          (jp' (T.sig csig)) := fun csig ⟨hc, hown⟩ => by
      refine Sim.bind (hT.openCall env (by simp [hown]) _ _) fun scope hlen => ?_
      refine Sim.bind (typeArgs d env scope csig 1 args csig.params hc.1 hlen hn.2)
        fun _ _ => ?_
      exact Sim.bind (hT.closeCall hc.2 scope) fun _ hret => Sim.pure hret
    cases o with
    | none => exact Sim.throw_bind
    | some t =>
      simp only [Option.map_some, Option.bind_some, ctorSig?_ty]
      cases hc : t.ctorSig? with
      | none => exact Sim.throw_bind
      | some csig =>
        exact Sim.bind (Sim.pure ⟨hT.sigGood_of_ctorSig? (ho t rfl) hc, Ty.owner_of_ctorSig? hc⟩) hk
  | .pattern c _, hn => by
    unfold Check.inferForm
    exact Sim.bind (hT.lookupCtor env hn.1 sp.start) fun csig hc =>
      Sim.pure_eq (by rw [owningType_sig]; rfl) (hT.owningType_good hc.2)

theorem typeBlock (d scope : Nat) {last : Ty} (hlast : T.Good last) :
    (items : List Node) → Node.ListEveryName (fun x => T.name x = x) items →
      T.Sim (fun r => (T.ty r.1, Node.renameList T.name r.2)) (fun r => T.Good r.1)
        (Check.typeBlock d scope last items) (Check.typeBlock d (T.frame scope) (T.ty last) items)
  | [], _ => by
    unfold Check.typeBlock
    exact Sim.pure hlast
  | n :: ns, hn => by
    unfold Check.typeBlock
    refine Sim.bind (typeOf d scope .plain nofun n hn.1) fun ⟨t, n'⟩ ht => ?_
    exact Sim.bind (typeBlock d scope ht ns hn.2) fun _ hr => Sim.pure hr

theorem typeArgs (d env scope : Nat) (f : Sig) :
    (pos : Nat) → (as : List Node) → (ps : List Ty) → (∀ t ∈ ps, T.Good t) →
      as.length = ps.length → Node.ListEveryName (fun x => T.name x = x) as →
      T.Sim (Node.renameList T.name) (fun _ => True) (Check.typeArgs d env scope f pos as ps)
        (Check.typeArgs d (T.frame env) (T.frame scope) (T.sig f) pos as (ps.map T.ty))
  | pos, a :: as, p :: ps, hps, hlen, hn => by
    obtain ⟨hp, hps⟩ := List.forall_mem_cons.1 hps
    rw [List.map_cons]
    unfold Check.typeArgs
    refine Sim.bind (hT.simp scope hp) fun expected _ => ?_
    refine Sim.bind (typeOf d env .plain nofun a hn.1) fun ⟨at_, a'⟩ hat => ?_
    refine Sim.bind (hT.simp env hat) fun actual hact => ?_
    refine Sim.bind (hT.accepts scope expected hact a.span.start) fun b _ => ?_
    dsimp only [id]
    cases b
    · -- an interface parameter names the interface left unimplemented
      cases expected with
      | iface r => exact Sim.throw_bind
      | _ => exact Sim.throw_bind
    exact Sim.bind (typeArgs d env scope f (pos + 1) as ps hps (by simpa using hlen) hn.2)
      fun _ _ => Sim.pure trivial
  | pos, [], ps, _, _, _ => by
    unfold Check.typeArgs
    exact Sim.pure trivial
  | pos, _ :: _, [], _, hlen, _ => by
    simp at hlen

theorem typeItems (d env : Nat) :
    (elem : Option Ty) → (∀ t ∈ elem, T.Good t) → (items : List Node) →
      Node.ListEveryName (fun x => T.name x = x) items →
      T.Sim (fun r => (r.1.map T.ty, Node.renameList T.name r.2)) (fun r => ∀ t ∈ r.1, T.Good t)
        (Check.typeItems d env elem items) (Check.typeItems d (T.frame env) (elem.map T.ty) items)
  | _, he, [], _ => by
    unfold Check.typeItems
    exact Sim.pure he
  | elem, he, n :: ns, hn => by
    unfold Check.typeItems
    refine Sim.bind (typeOf d env .plain nofun n hn.1) fun ⟨t, n'⟩ ht => ?_
    refine Sim.bind (hT.simp env ht) fun t ht => ?_
    refine Sim.bind (hT.widen env he ht n.span.start) fun w hw => ?_
    cases w with
    | ok w =>
      exact Sim.bind (typeItems d env (some w) (fun _ h => by cases h; exact hw w rfl) ns hn.2)
        fun _ hr => Sim.pure hr
    | error p =>
      cases p
      exact Sim.throw

theorem typeCases (d env : Nat) {subject : Ty} (hs : T.Good subject) :
    (result : Option Ty) → (∀ t ∈ result, T.Good t) → (cases : List Node) →
      Node.ListEveryName (fun x => T.name x = x) cases →
      T.Sim (fun r => (r.1.map T.ty, Node.renameList T.name r.2)) (fun r => ∀ t ∈ r.1, T.Good t)
        (Check.typeCases d env subject result cases)
        (Check.typeCases d (T.frame env) (T.ty subject) (result.map T.ty) cases)
  | _, hr, [], _ => by
    unfold Check.typeCases
    exact Sim.pure hr
  | result, hr, c :: cs, hn => by
    unfold Check.typeCases
    refine Sim.bind (typeOf d env (.subject subject) (fun t h => by cases h; exact hs) c hn.1)
      fun ⟨t, c'⟩ ht => ?_
    refine Sim.bind (hT.simp env ht) fun t ht => ?_
    refine Sim.bind (hT.widen env hr ht c.span.start) fun w hw => ?_
    cases w with
    | ok w =>
      have hw' : ∀ t ∈ some w, T.Good t := fun _ h => by cases h; exact hw w rfl
      exact Sim.bind (typeCases d env hs (some w) hw' cs hn.2) fun _ hr => Sim.pure hr
    | error p =>
      cases p
      exact Sim.throw

theorem typeAssignments (d scope : Nat) :
    (as : List Node) → Node.ListEveryName (fun x => T.name x = x) as →
      T.Sim (Node.renameList T.name) (fun _ => True) (Check.typeAssignments d scope as)
        (Check.typeAssignments d (T.frame scope) as)
  | [], _ => by
    unfold Check.typeAssignments
    exact Sim.pure trivial
  | a :: as, hn => by
    unfold Check.typeAssignments
    refine Sim.bind (typeOf d scope .plain nofun a hn.1) fun _ _ => ?_
    exact Sim.bind (typeAssignments d scope as hn.2) fun _ _ => Sim.pure trivial

end

end Steps

end Translation

end Check

end Verve
