import Verve.Proofs.Annotated

/-!
# The nesting limit

Checking reads its nesting limit in one place: a node nested deeper than the limit is the
fault `recursionLimit` with the limit. Nothing else reads the limit and no fault is ever
caught, so lowering the limit from `M` to `N` changes a check in one way only: where the run
with `M` goes deeper than `N`, the run with `N` stops there with `recursionLimit N`
(`check_limit_only_adds_recursionLimit`).

`Check.Capped m` says this of a step: run with the limit of its setting lowered to `N`, `m`
gives what it gives with the setting's own limit, value and store alike, or it stops with
`recursionLimit N`. It composes along `bind` (`Capped.bind`), holds of every step that does
not look at the limit, and of the check of every node, by induction on the node
(`typeOf_capped`).
-/

namespace Verve

namespace Check

/-- Run with its limit lowered to `N`, `m` does what it does with the setting's own limit, or
stops with the fault `recursionLimit N`. -/
def Capped {α : Type} (m : Check α) : Prop :=
  ∀ σ st N, N ≤ σ.maxDepth →
    m.exec { σ with maxDepth := N } st = m.exec σ st ∨
      ∃ pos st', m.exec { σ with maxDepth := N } st = (.error ⟨.recursionLimit N, pos⟩, st')

namespace Capped

variable {α β : Type}

/-- A step that runs alike under every limit. -/
theorem of_exec_eq {m : Check α} (h : ∀ σ st N, m.exec { σ with maxDepth := N } st = m.exec σ st) :
    Capped m :=
  fun σ st N _ => .inl (h σ st N)

theorem pure {a : α} : Capped (Pure.pure a : Check α) := of_exec_eq fun _ _ _ => rfl

theorem throw {e : Located} : Capped (MonadExcept.throw e : Check α) :=
  of_exec_eq fun _ _ _ => rfl

/-- Nothing after a fault runs. -/
theorem throw_bind {e : Located} {f : α → Check β} : Capped (MonadExcept.throw e >>= f) :=
  of_exec_eq fun _ _ _ => rfl

theorem get : Capped (MonadState.get : Check Store) := of_exec_eq fun _ _ _ => rfl

theorem bind {m : Check α} {f : α → Check β} (hm : Capped m) (hf : ∀ a, Capped (f a)) :
    Capped (m >>= f) := by
  intro σ st N hN
  rw [exec_bind, exec_bind]
  rcases hm σ st N hN with h | ⟨pos, st', h⟩
  · rw [h]
    rcases m.exec σ st with ⟨_ | a, st1⟩
    · exact .inl rfl
    · exact hf a σ st1 N hN
  · rw [h]
    exact .inr ⟨pos, st', rfl⟩

/-- A step that reads the setting for anything but the limit. -/
theorem read_bind {f : Setting → Check β} (hf : ∀ σ N, f { σ with maxDepth := N } = f σ)
    (hc : ∀ σ, Capped (f σ)) : Capped (MonadReader.read >>= f) := by
  intro σ st N hN
  rw [exec_bind, exec_bind, exec_read, exec_read]
  dsimp only
  rw [hf σ N]
  exact hc σ σ st N hN

theorem forIn {γ δ : Type} {l : List γ} {b : δ} {f : γ → δ → Check (ForInStep δ)}
    (hf : ∀ x b, Capped (f x b)) : Capped (ForIn.forIn l b f) := by
  induction l generalizing b with
  | nil => exact pure
  | cons x l ih =>
    rw [List.forIn_cons]
    refine bind (hf x b) fun r => ?_
    cases r with
    | done b' => exact pure
    | yield b' => exact ih

theorem mapM {γ : Type} {l : List γ} {f : γ → Check α} (hf : ∀ x, Capped (f x)) :
    Capped (l.mapM f) := by
  induction l with
  | nil => exact pure
  | cons x l ih =>
    rw [List.mapM_cons]
    exact bind (hf x) fun _ => bind ih fun _ => pure

end Capped

section Steps

theorem capped_lookupName (i : Nat) (x : String) : Capped (lookupName i x) :=
  Capped.of_exec_eq fun _ _ _ => rfl

theorem capped_bindName (i : Nat) (x : String) (t : Ty) : Capped (bindName i x t) :=
  Capped.of_exec_eq fun _ _ _ => rfl

theorem capped_openFrame (i : Nat) : Capped (openFrame i) := Capped.of_exec_eq fun _ _ _ => rfl

theorem capped_simp (i : Nat) (t : Ty) : Capped (simp i t) := Capped.of_exec_eq fun _ _ _ => rfl

theorem capped_freshGeneric (name : String) : Capped (freshGeneric name) :=
  Capped.of_exec_eq fun _ _ _ => rfl

/-- A search's answer reads nothing of the setting. -/
theorem exec_answer_setting (o : Outcome) (pos : Nat) (σ σ' : Setting) (st : Store) :
    (answer o pos).exec σ st = (answer o pos).exec σ' st := by
  cases o <;> rfl

theorem capped_answer (o : Outcome) (pos : Nat) : Capped (answer o pos) :=
  Capped.of_exec_eq fun σ st _ => exec_answer_setting o pos _ σ st

theorem capped_assignable (i : Nat) (e a : Ty) (pos : Nat) : Capped (assignable i e a pos) :=
  Capped.bind Capped.get fun _ => Capped.read_bind (fun _ _ => rfl) fun _ => capped_answer _ pos

theorem capped_binding (f : View → Ty → Ty → Outcome × Scopes) (i : Nat) (e a : Ty) (pos : Nat) :
    Capped (binding f i e a pos) :=
  Capped.of_exec_eq fun σ st _ => by
    rw [exec_binding, exec_binding]
    exact exec_answer_setting _ pos _ σ _

theorem capped_installGenerics (scope : Nat) (sig : Sig) : Capped (installGenerics scope sig) := by
  unfold installGenerics
  refine Capped.bind (Capped.forIn fun _ _ => Capped.bind (capped_bindName _ _ _) fun _ =>
    Capped.pure) fun _ => Capped.read_bind (fun _ _ => rfl) fun _ => ?_
  split
  · exact capped_bindName _ _ _
  · exact Capped.pure

theorem capped_closeGenerics (gs : List String) (scope : Nat) :
    Capped (closeGenerics gs scope) := by
  unfold closeGenerics
  refine Capped.bind (Capped.forIn fun g _ => Capped.bind (capped_simp _ _) fun t => ?_)
    fun _ => Capped.pure
  split
  · exact Capped.bind (capped_freshGeneric g) fun f =>
      Capped.bind (capped_bindName _ _ f) fun _ => Capped.pure
  · exact Capped.pure

theorem capped_widen (env : Nat) (cur : Option Ty) (next : Ty) (pos : Nat) :
    Capped (widen env cur next pos) := by
  unfold widen
  split
  · exact Capped.pure
  · refine Capped.bind (capped_openFrame env) fun trial => ?_
    refine Capped.bind (capped_binding _ _ _ _ pos) fun _ => ?_
    split
    · exact Capped.bind (capped_simp _ _) fun _ => Capped.pure
    · refine Capped.bind (capped_openFrame env) fun trial' => ?_
      refine Capped.bind (capped_binding _ _ _ _ pos) fun _ => ?_
      split
      · exact Capped.bind (capped_simp _ _) fun _ => Capped.pure
      · exact Capped.pure

theorem capped_lookupCtor (env : Nat) (name : String) (pos : Nat) :
    Capped (lookupCtor env name pos) := by
  unfold lookupCtor
  refine Capped.bind (capped_lookupName env name) fun _ => ?_
  split
  · exact Capped.pure
  · exact Capped.throw

theorem capped_bindPattern (p : Node) (csig : Sig) (value : Option Ty) (scope : Nat) :
    Capped (bindPattern p csig value scope) := by
  unfold bindPattern
  split
  · dsimp only
    split
    · exact Capped.throw_bind
    refine Capped.bind (capped_openFrame scope) fun cs => ?_
    refine Capped.bind (Capped.forIn fun _ _ =>
      Capped.bind (capped_bindName _ _ _) fun _ => Capped.pure) fun _ => ?_
    -- with a value to unify or without, the rest of the binding is the same
    split
    case' h_1 => refine Capped.bind (capped_binding _ _ _ _ _) fun _ => ?_
    all_goals
      exact Capped.bind (capped_closeGenerics _ _) fun _ =>
        Capped.bind (Capped.forIn fun _ _ => Capped.bind (capped_simp _ _) fun _ =>
          Capped.bind (capped_bindName _ _ _) fun _ => Capped.pure) fun _ =>
          Capped.bind (capped_simp _ _) fun _ => Capped.pure
  · exact Capped.pure

theorem capped_openCall (env : Nat) (f : Sig) (loc count : Nat) :
    Capped (openCall env f loc count) := by
  unfold openCall
  split
  · exact Capped.throw_bind
  · exact Capped.bind (capped_openFrame env) fun scope =>
      Capped.bind (capped_installGenerics scope f) fun _ => Capped.pure

theorem capped_closeCall (f : Sig) (scope : Nat) : Capped (closeCall f scope) := by
  unfold closeCall
  refine Capped.bind (capped_closeGenerics _ _) fun _ => ?_
  split
  · split
    · exact capped_simp _ _
    · exact Capped.bind (Capped.mapM fun _ => capped_simp _ _) fun _ => Capped.pure
  · exact capped_simp _ _

theorem capped_dispatchOf (env scope : Nat) (f : Sig) : Capped (dispatchOf env scope f) := by
  unfold dispatchOf
  refine Capped.read_bind (fun _ _ => rfl) fun σ => ?_
  split
  · exact Capped.pure
  · refine Capped.bind (capped_simp _ _) fun t => ?_
    split
    · exact Capped.pure
    · refine Capped.bind (capped_lookupName _ _) fun _ => ?_
      split
      · exact Capped.pure
      · exact Capped.pure

end Steps

mutual

/-- **Only the depth test reads the limit.** With the limit lowered, checking a node does what
it does with the setting's own limit, or stops where it is nested deeper than the lowered
limit. -/
theorem typeOf_capped (d env : Nat) (ctx : Ctx) : (n : Node) → Capped (typeOf d env ctx n)
  | .mk f sp _ => by
    intro σ st N hN
    rw [typeOf, exec_bind, exec_bind, exec_read, exec_read]
    dsimp only
    by_cases hd : N < d + 1
    · -- the lowered limit is passed here: the run stops at this node
      rw [if_pos hd]
      exact .inr ⟨sp.start, st, rfl⟩
    · rw [if_neg hd, if_neg (by omega)]
      exact Capped.bind (inferForm_capped (d + 1) env ctx sp f) (fun _ => Capped.pure) σ st N hN

theorem inferForm_capped (d env : Nat) (ctx : Ctx) (sp : Span) :
    (f : Form) → Capped (inferForm d env ctx sp f)
  | .str _ => by
    unfold inferForm
    exact Capped.read_bind (fun _ _ => rfl) fun _ => Capped.pure
  | .num _ => by
    unfold inferForm
    exact Capped.read_bind (fun _ _ => rfl) fun _ => Capped.pure
  | .ident x => by
    unfold inferForm
    refine Capped.bind (capped_lookupName env x) fun _ => ?_
    split
    · exact Capped.pure
    · exact Capped.throw
  | .binary op l r => by
    unfold inferForm
    refine Capped.read_bind (fun _ _ => rfl) fun _ => ?_
    refine Capped.bind (typeOf_capped d env .plain l) fun _ => ?_
    refine Capped.bind (capped_simp _ _) fun _ =>
      Capped.bind (capped_assignable _ _ _ _) fun _ => ?_
    dsimp only
    split
    · refine Capped.bind (typeOf_capped d env .plain r) fun _ => ?_
      refine Capped.bind (capped_simp _ _) fun _ =>
        Capped.bind (capped_assignable _ _ _ _) fun _ => ?_
      split
      · exact Capped.pure
      · exact Capped.throw_bind
    · exact Capped.throw_bind
  | .unary op o => by
    unfold inferForm
    exact Capped.bind (typeOf_capped d env .plain o) fun _ =>
      Capped.read_bind (fun _ _ => rfl) fun _ => Capped.pure
  | .func x ps body => by
    unfold inferForm
    refine Capped.bind (capped_lookupName env x) fun _ => ?_
    extract_lets jp
    have hk : ∀ sig, Capped (jp sig) := fun sig => by
      dsimp only [jp]
      split
      · exact Capped.throw_bind
      refine Capped.bind (capped_openFrame env) fun scope => ?_
      refine Capped.bind (capped_installGenerics scope sig) fun _ => ?_
      refine Capped.bind (Capped.forIn fun _ _ =>
        Capped.bind (capped_bindName _ _ _) fun _ => Capped.pure) fun _ => ?_
      refine Capped.bind (typeOf_capped d scope .plain body) fun _ => ?_
      refine Capped.bind (capped_simp _ _) fun _ => Capped.bind (capped_simp _ _) fun _ => ?_
      refine Capped.bind (capped_binding _ _ _ _ _) fun _ => ?_
      split
      · exact Capped.pure
      · exact Capped.throw_bind
    split
    · exact Capped.bind Capped.pure hk
    · exact Capped.throw_bind
  | .block items => by
    unfold inferForm
    extract_lets jp
    have hk : ∀ scope, Capped (jp scope) := fun scope =>
      Capped.read_bind (fun _ _ => rfl) fun _ =>
        Capped.bind (typeBlock_capped d scope _ items) fun _ => Capped.pure
    cases ctx with
    | scope j => exact Capped.bind Capped.pure hk
    | plain => exact Capped.bind (capped_openFrame env) hk
    | subject _ => exact Capped.bind (capped_openFrame env) hk
  | .call callee args _ => by
    unfold inferForm
    refine Capped.bind (typeOf_capped d env .plain callee) fun _ => ?_
    refine Capped.bind (capped_simp _ _) fun _ => ?_
    extract_lets jp
    have hk : ∀ f, Capped (jp f) := fun f => by
      refine Capped.bind (capped_openCall env f _ _) fun scope => ?_
      refine Capped.bind (typeArgs_capped d env scope f 1 args f.params) fun _ => ?_
      refine Capped.bind (capped_closeCall f scope) fun _ => ?_
      refine Capped.bind (capped_dispatchOf env scope f) fun _ => ?_
      exact Capped.bind (capped_simp _ _) fun _ => Capped.pure
    split
    · exact Capped.bind Capped.pure hk
    · exact Capped.throw_bind
  | .cond c t none => by
    unfold inferForm
    refine Capped.bind (typeOf_capped d env .plain c) fun _ => ?_
    refine Capped.bind (typeOf_capped d env .plain t) fun _ => ?_
    exact Capped.bind (capped_simp _ _) fun _ => Capped.pure
  | .cond c t (some e) => by
    unfold inferForm
    refine Capped.bind (typeOf_capped d env .plain c) fun _ => ?_
    refine Capped.bind (typeOf_capped d env .plain t) fun _ => ?_
    refine Capped.bind (capped_simp _ _) fun _ => ?_
    refine Capped.bind (typeOf_capped d env .plain e) fun _ => ?_
    refine Capped.bind (capped_simp _ _) fun _ => ?_
    refine Capped.bind (capped_widen env _ _ _) fun _ => ?_
    split
    · exact Capped.pure
    · exact Capped.throw
  | .list items => by
    unfold inferForm
    refine Capped.bind (typeItems_capped d env none items) fun ⟨elem, items'⟩ => ?_
    dsimp -zeta only
    extract_lets jp
    have hk : ∀ elem, Capped (jp elem) := fun _ =>
      Capped.read_bind (fun _ _ => rfl) fun _ => Capped.pure
    split
    · exact Capped.bind (capped_simp _ _) hk
    · exact Capped.read_bind (fun _ _ => rfl) fun _ => Capped.bind (capped_freshGeneric _) hk
  | .matchOn value cases => by
    unfold inferForm
    refine Capped.bind (typeOf_capped d env .plain value) fun _ => ?_
    refine Capped.bind (capped_simp _ _) fun subject => ?_
    dsimp only
    split
    · exact Capped.throw_bind
    refine Capped.bind (typeCases_capped d env subject none cases) fun _ => ?_
    split
    · exact Capped.bind (capped_simp _ _) fun _ => Capped.pure
    · exact Capped.read_bind (fun _ _ => rfl) fun _ => Capped.bind Capped.pure fun _ => Capped.pure
  | .case p body => by
    unfold inferForm
    split
    · refine Capped.bind (capped_lookupCtor env _ _) fun csig => ?_
      refine Capped.bind (capped_openFrame env) fun scope => ?_
      refine Capped.bind (capped_bindPattern p csig _ scope) fun _ => ?_
      exact Capped.bind (typeOf_capped d scope .plain body) fun _ => Capped.pure
    · exact Capped.throw
  | .letIn assignments body => by
    unfold inferForm
    refine Capped.bind (capped_openFrame env) fun scope => ?_
    refine Capped.bind (typeAssignments_capped d scope assignments) fun _ => ?_
    exact Capped.bind (typeOf_capped d scope (.scope scope) body) fun _ => Capped.pure
  | .assign left value => by
    unfold inferForm
    refine Capped.bind (typeOf_capped d env .plain value) fun _ => ?_
    refine Capped.bind (capped_simp _ _) fun v => ?_
    split
    · exact Capped.bind (capped_bindName _ _ v) fun _ => Capped.pure
    · refine Capped.bind (capped_lookupCtor env _ _) fun csig => ?_
      refine Capped.bind (capped_assignable _ _ _ _) fun _ => ?_
      dsimp only
      split
      · exact Capped.bind (capped_bindPattern left csig _ env) fun _ => Capped.pure
      · exact Capped.throw_bind
    · exact Capped.throw
  | .construct x args => by
    unfold inferForm
    refine Capped.bind (capped_lookupName env x) fun _ => ?_
    extract_lets jp
    have hk : ∀ csig, Capped (jp csig) := fun csig => by
      refine Capped.bind (capped_openCall env csig _ _) fun scope => ?_
      refine Capped.bind (typeArgs_capped d env scope csig 1 args csig.params) fun _ => ?_
      exact Capped.bind (capped_closeCall csig scope) fun _ => Capped.pure
    split
    · exact Capped.bind Capped.pure hk
    · exact Capped.throw_bind
  | .pattern c _ => by
    unfold inferForm
    exact Capped.bind (capped_lookupCtor env c sp.start) fun _ => Capped.pure

theorem typeBlock_capped (d scope : Nat) (last : Ty) :
    (items : List Node) → Capped (typeBlock d scope last items)
  | [] => by
    unfold typeBlock
    exact Capped.pure
  | n :: ns => by
    unfold typeBlock
    refine Capped.bind (typeOf_capped d scope .plain n) fun _ => ?_
    exact Capped.bind (typeBlock_capped d scope _ ns) fun _ => Capped.pure

theorem typeArgs_capped (d env scope : Nat) (f : Sig) :
    (pos : Nat) → (as : List Node) → (ps : List Ty) → Capped (typeArgs d env scope f pos as ps)
  | pos, a :: as, p :: ps => by
    unfold typeArgs
    refine Capped.bind (capped_simp _ _) fun expected => ?_
    refine Capped.bind (typeOf_capped d env .plain a) fun _ => ?_
    refine Capped.bind (capped_simp _ _) fun _ => ?_
    refine Capped.bind (capped_binding _ _ _ _ _) fun _ => ?_
    dsimp only
    split
    · exact Capped.bind (typeArgs_capped d env scope f (pos + 1) as ps) fun _ => Capped.pure
    · split
      · exact Capped.throw_bind
      · exact Capped.throw_bind
  | pos, [], _ => by
    unfold typeArgs
    exact Capped.pure
  | pos, _ :: _, [] => by
    unfold typeArgs
    exact Capped.pure

theorem typeItems_capped (d env : Nat) :
    (elem : Option Ty) → (items : List Node) → Capped (typeItems d env elem items)
  | _, [] => by
    unfold typeItems
    exact Capped.pure
  | elem, n :: ns => by
    unfold typeItems
    refine Capped.bind (typeOf_capped d env .plain n) fun _ => ?_
    refine Capped.bind (capped_simp _ _) fun _ => ?_
    refine Capped.bind (capped_widen env _ _ _) fun _ => ?_
    split
    · exact Capped.bind (typeItems_capped d env _ ns) fun _ => Capped.pure
    · exact Capped.throw

theorem typeCases_capped (d env : Nat) (subject : Ty) :
    (result : Option Ty) → (cases : List Node) → Capped (typeCases d env subject result cases)
  | _, [] => by
    unfold typeCases
    exact Capped.pure
  | result, c :: cs => by
    unfold typeCases
    refine Capped.bind (typeOf_capped d env (.subject subject) c) fun _ => ?_
    refine Capped.bind (capped_simp _ _) fun _ => ?_
    refine Capped.bind (capped_widen env _ _ _) fun _ => ?_
    split
    · exact Capped.bind (typeCases_capped d env subject _ cs) fun _ => Capped.pure
    · exact Capped.throw

theorem typeAssignments_capped (d scope : Nat) :
    (as : List Node) → Capped (typeAssignments d scope as)
  | [] => by
    unfold typeAssignments
    exact Capped.pure
  | a :: as => by
    unfold typeAssignments
    refine Capped.bind (typeOf_capped d scope .plain a) fun _ => ?_
    exact Capped.bind (typeAssignments_capped d scope as) fun _ => Capped.pure

end

end Check

/-- **Lowering the nesting limit only adds the recursion limit.** For every program and limits
`N ≤ M`, checking with `N` gives exactly what checking with `M` gives, the same type and tree
or the same fault at the same position, or it fails with `recursionLimit N`. -/
theorem check_limit_only_adds_recursionLimit (prog : Program) {N M : Nat} (h : N ≤ M) :
    check prog N = check prog M ∨ ∃ pos, check prog N = .error ⟨.recursionLimit N, pos⟩ := by
  rw [check_eq_exec, check_eq_exec]
  rcases Check.typeOf_capped 0 0 .plain prog.body
      ⟨prog.decls, .ofDecls prog.decls, M, prog.decls.liveIfaces⟩ ⟨.ofRoot prog.decls.env, 0⟩ N h
    with he | ⟨pos, st', he⟩
  · exact .inl (congrArg Prod.fst he)
  · exact .inr ⟨pos, congrArg Prod.fst he⟩

/-- `let x = 1 { x }` nests four deep: checked with the limit lowered from 8 to 3, it does what
it does with 8 or stops at the limit 3. -/
theorem check_limit_letOne :
    3 ≤ 8 ∧ (check ⟨letOneBody, .initial⟩ 3 = check ⟨letOneBody, .initial⟩ 8 ∨
      ∃ pos, check ⟨letOneBody, .initial⟩ 3 = .error ⟨.recursionLimit 3, pos⟩) :=
  ⟨by decide, check_limit_only_adds_recursionLimit ⟨letOneBody, .initial⟩ (by decide)⟩

end Verve
