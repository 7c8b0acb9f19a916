import Verve.Proofs.SettledSteps

/-!
# Checking keeps its store settled

From the steps of `Verve.Proofs.SettledSteps`, by induction on the node, one case per form:
checking any plainly named node from a settled store leaves a settled store, whether it
returns or stops at a fault, and the type it gives was made before the counter it leaves
(`Check.typeOf_keeps`). The counter and the number of frames only grow along the way.

So every store a check of a read program passes through between nodes is settled: the check
starts from the root frame of the program's table (`Decls.Written.settled_root`), and every
block it checks starts after steps that keep the store settled (`Check.typeOf_settled`,
`Check.typeBlock_settled`, `Program.check_settled`).
-/

namespace Verve

open Placeholder

namespace Check

section Derived

variable {c k : Nat}

/-- The type of the values a constructor of a signature made before the counter builds was
made before it too. -/
theorem owningType_before {f : Sig} (hf : f.ret.Before c) : (owningType f).Before c := by
  unfold owningType
  split
  · rename_i r hr
    split
    · exact hf
    · refine Ty.before_app.2 ⟨hf, fun t ht => ?_⟩
      obtain ⟨g, hg, rfl⟩ := List.mem_map.1 ht
      rw [hr] at hf
      exact Ty.before_generic.2 (hf.2 g (by simpa [Ty.genericNames] using hg))
  · exact hf

/-- A signature's generics, and the parameter of its live interface, are bound to types made
before the counter. -/
theorem keeps_installGenerics (scope : Nat) {f : Sig} (hg : ∀ g ∈ f.generics, Below c g)
    (ho : ∀ o ∈ f.owner, Below c o.generic) :
    Keeps c k (installGenerics scope f) (fun _ _ _ => True) := by
  unfold installGenerics
  refine Keeps.bind (Keeps.forIn fun g hgm _ c' k' hc _ =>
    Keeps.bind (keeps_bindName scope ((hg g hgm).mono hc) (Ty.before_generic.2 ((hg g hgm).mono hc)))
      fun _ _ _ _ _ _ => Keeps.pure fun _ _ _ _ => trivial)
    fun _ c1 k1 hc1 _ _ => Keeps.bind Keeps.read fun σ c2 k2 hc2 _ _ => ?_
  cases hl : Decls.liveOwner σ.live f.owner with
  | none => exact Keeps.pure fun _ _ _ _ => trivial
  | some r =>
    -- only the signature's own interface is live
    have hr : Below c2 r.generic := (ho r (Option.filter_eq_some_iff.1 hl).1).mono (by omega)
    exact keeps_bindName scope hr (Ty.before_iface.2 hr)

/-- Each generic still bound to itself gets a fresh copy, made before the counter it moves
to. -/
theorem keeps_closeGenerics (gs : List String) (scope : Nat) (hgs : ∀ g ∈ gs, Below c g) :
    Keeps c k (closeGenerics gs scope) (fun _ _ _ => True) := by
  unfold closeGenerics
  refine Keeps.bind (Keeps.forIn fun g hg _ c' k' hc _ => ?_)
    fun _ _ _ _ _ _ => Keeps.pure fun _ _ _ _ => trivial
  have hg' : Below c' g := (hgs g hg).mono hc
  refine Keeps.bind (keeps_simp scope (Ty.before_generic.2 hg')) fun t c1 k1 hc1 _ _ => ?_
  split
  · exact Keeps.bind (keeps_freshGeneric (hg'.mono hc1)) fun u c2 k2 hc2 _ hu =>
      Keeps.bind (keeps_bindName scope (hg'.mono (hc1.trans hc2)) hu)
        fun _ _ _ _ _ _ => Keeps.pure fun _ _ _ _ => trivial
  · exact Keeps.pure fun _ _ _ _ => trivial

/-- Widening tries each type in a trial frame opened inside `env`. -/
theorem keeps_widen {env : Nat} (henv : env < k) {cur : Option Ty} (hc : ∀ t ∈ cur, t.Before c)
    {next : Ty} (hn : next.Before c) (pos : Nat) :
    Keeps c k (widen env cur next pos) (fun r c' _ => ∀ t, r = .ok t → t.Before c') := by
  unfold widen
  cases cur with
  | none => exact Keeps.pure fun _ _ hc' _ t ht => by cases ht; exact hn.mono hc'
  | some cu =>
    have hcu : cu.Before c := hc cu rfl
    refine Keeps.bind (keeps_openFrame henv) fun trial c1 k1 hc1 hk1 _ => ?_
    refine Keeps.bind (keeps_accepts trial (hcu.mono hc1) (hn.mono hc1) pos)
      fun b c2 k2 hc2 hk2 _ => ?_
    cases b with
    | true =>
      exact Keeps.bind (keeps_simp trial (hcu.mono (by omega))) fun t _ _ _ _ ht =>
        Keeps.pure fun _ _ hc4 _ u hu => by cases hu; exact ht.mono hc4
    | false =>
      refine Keeps.bind (keeps_openFrame (by omega)) fun trial' c3 k3 hc3 hk3 _ => ?_
      refine Keeps.bind (keeps_accepts trial' (hn.mono (by omega)) (hcu.mono (by omega)) pos)
        fun b' c4 k4 hc4 hk4 _ => ?_
      cases b' with
      | true =>
        exact Keeps.bind (keeps_simp trial' (hn.mono (by omega))) fun t _ _ _ _ ht =>
          Keeps.pure fun _ _ hc6 _ u hu => by cases hu; exact ht.mono hc6
      | false => exact Keeps.pure fun _ _ _ _ _ h => by cases h

/-- The signature of a constructor looked up was made before the counter. -/
theorem keeps_lookupCtor (env : Nat) (x : String) (pos : Nat) :
    Keeps c k (lookupCtor env x pos) (fun f c' _ => f.Before c') := by
  unfold lookupCtor
  refine Keeps.bind (keeps_lookupName env x) fun o _ _ _ _ ho => ?_
  cases o with
  | none => exact Keeps.throw
  | some t =>
    simp only [Option.bind_some]
    cases hc : t.ctorSig? with
    | none => exact Keeps.throw
    | some f => exact Keeps.pure fun _ _ hc2 _ => (Sig.before_of_ctorSig? (ho t rfl) hc).mono hc2

/-- A pattern binds its names, plain, in `scope`, and the constructor's generics in a frame
opened inside `scope`. -/
theorem keeps_bindPattern {p : Node} {cn : String} {bs : List Binding}
    (hp : p.form = .pattern cn bs) (hbs : ∀ b ∈ bs, Ty.PlainName b.name) {csig : Sig}
    (hcs : csig.Before c) {value : Option Ty} (hv : ∀ v ∈ value, v.Before c) {scope : Nat}
    (hs : scope < k) :
    Keeps c k (bindPattern p csig value scope) (fun _ _ _ => True) := by
  unfold bindPattern
  rw [hp]
  dsimp only
  by_cases hlen : bs.length ≠ csig.params.length
  · rw [if_pos hlen]
    exact Keeps.throw_bind
  rw [if_neg hlen]
  -- the pattern's names go to `scope`, each with its parameter as the new frame has it
  have hnames : ∀ cs c' k', c ≤ c' → Keeps c' k'
      (forIn (bs.zip csig.params) PUnit.unit fun x _ => do
        bindName scope x.1.name (← simp cs x.2)
        pure (ForInStep.yield PUnit.unit)) (fun _ _ _ => True) := by
    intro cs c' k' hc'
    refine Keeps.forIn fun x hx _ c'' k'' hc'' _ => ?_
    obtain ⟨hb, hparam⟩ := List.of_mem_zip hx
    refine Keeps.bind (keeps_simp cs ((hcs.params _ hparam).mono (hc'.trans hc'')))
      fun t _ _ _ _ ht => ?_
    exact Keeps.bind (keeps_bindName scope (below_of_not_mem (hbs _ hb)) ht)
      fun _ _ _ _ _ _ => Keeps.pure fun _ _ _ _ => trivial
  have howner := owningType_before hcs.ret
  refine Keeps.bind (keeps_openFrame hs) fun cs c1 k1 hc1 hk1 _ => ?_
  refine Keeps.bind (Keeps.forIn fun g hg _ c' k' hc _ =>
    Keeps.bind (keeps_bindName cs ((hcs.generics g hg).mono (hc1.trans hc))
      (Ty.before_generic.2 ((hcs.generics g hg).mono (hc1.trans hc))))
      fun _ _ _ _ _ _ => Keeps.pure fun _ _ _ _ => trivial) fun _ c2 k2 hc2 _ _ => ?_
  cases value with
  | none =>
    refine Keeps.bind (keeps_closeGenerics _ cs fun g hg => (hcs.generics g hg).mono (by omega))
      fun _ c3 k3 hc3 _ _ => Keeps.bind (hnames cs c3 k3 (by omega)) fun _ c4 k4 hc4 _ _ => ?_
    exact Keeps.bind (keeps_simp cs (howner.mono (by omega))) fun _ _ _ _ _ _ =>
      Keeps.pure fun _ _ _ _ => trivial
  | some v =>
    have hv' : v.Before c := hv v rfl
    refine Keeps.bind (keeps_unify cs (howner.mono (by omega)) (hv'.mono (by omega)) _)
      fun _ c3 k3 hc3 _ _ => ?_
    refine Keeps.bind (keeps_closeGenerics _ cs fun g hg => (hcs.generics g hg).mono (by omega))
      fun _ c4 k4 hc4 _ _ => Keeps.bind (hnames cs c4 k4 (by omega)) fun _ c5 k5 hc5 _ _ => ?_
    exact Keeps.bind (keeps_simp cs (howner.mono (by omega))) fun _ _ _ _ _ _ =>
      Keeps.pure fun _ _ _ _ => trivial

/-- A call opens its frame inside `env`, and a call that opens has one argument for each
parameter. -/
theorem keeps_openCall {env : Nat} (henv : env < k) {f : Sig} (hg : ∀ g ∈ f.generics, Below c g)
    (ho : ∀ o ∈ f.owner, Below c o.generic) (loc count : Nat) :
    Keeps c k (openCall env f loc count) (fun s _ k' => s < k' ∧ count = f.params.length) := by
  unfold openCall
  dsimp only
  by_cases hc : count ≠ f.params.length
  · rw [if_pos hc]
    exact Keeps.throw_bind
  rw [if_neg hc]
  refine Keeps.bind (keeps_openFrame henv) fun scope c1 k1 hc1 hk1 hs => ?_
  exact Keeps.bind (keeps_installGenerics scope (fun g h => (hg g h).mono hc1)
    (fun o h => (ho o h).mono hc1)) fun _ _ _ _ _ _ =>
      Keeps.pure fun _ _ _ hk3 => ⟨by omega, not_not.1 hc⟩

/-- The type a call gives was made before the counter it leaves. -/
theorem keeps_closeCall {f : Sig} (hf : f.Before c) (scope : Nat) :
    Keeps c k (closeCall f scope) (fun t c' _ => t.Before c') := by
  unfold closeCall
  refine Keeps.bind (keeps_closeGenerics f.generics scope hf.generics) fun _ c1 k1 hc1 _ _ => ?_
  have hret : f.ret.Before c1 := hf.ret.mono hc1
  split
  · rename_i r hr
    split
    · exact keeps_simp scope hret
    · -- an applied enum: each of its generics as the call's frame binds it
      have hgen : ∀ g ∈ r.generics, Below c1 g := fun g hg => by
        rw [hr] at hret
        exact hret.2 g (by simpa [Ty.genericNames] using hg)
      refine Keeps.bind (Keeps.mapM (Q := fun t c' => t.Before c') (fun _ _ _ h ha => ha.mono h)
        fun g hg _ _ hc _ => keeps_simp scope (Ty.before_generic.2 ((hgen g hg).mono hc)))
        fun ts c2 _ hc2 _ hts => ?_
      exact Keeps.pure fun _ _ hc3 _ =>
        Ty.before_app.2 ⟨hret.mono (hc2.trans hc3), fun t ht => (hts t ht).mono hc3⟩
  · exact keeps_simp scope hret

/-- Finding the implementation a call reaches binds nothing. -/
theorem keeps_dispatchOf (env scope : Nat) {f : Sig} (ho : ∀ o ∈ f.owner, Below c o.generic) :
    Keeps c k (dispatchOf env scope f) (fun _ _ _ => True) := by
  unfold dispatchOf
  refine Keeps.bind Keeps.read fun σ c1 _ hc1 _ _ => ?_
  cases hl : Decls.liveOwner σ.live f.owner with
  | none => exact Keeps.pure fun _ _ _ _ => trivial
  | some r =>
    have hr : Below c1 r.generic := (ho r (Option.filter_eq_some_iff.1 hl).1).mono hc1
    refine Keeps.bind (keeps_simp scope (Ty.before_generic.2 hr)) fun t _ _ _ _ _ => ?_
    cases t.dispatchKey with
    | none => exact Keeps.pure fun _ _ _ _ => trivial
    | some key =>
      refine Keeps.bind (keeps_lookupName env _) fun o _ _ _ _ _ => ?_
      split <;> exact Keeps.pure fun _ _ _ _ => trivial

end Derived

/-! ### Checking a node -/

mutual

/-- **Checking a node keeps its store settled.** Checked in a frame among the store's, from a
settled store, a plainly named node leaves a settled store with a counter and frames no
smaller, whether it returns or stops at a fault, and the type it gives was made before the
counter it leaves. The induction is on the node, one case per form. -/
theorem typeOf_keeps (d env : Nat) (ctx : Ctx) {c k : Nat} (henv : env < k)
    (hctx : ∀ t, ctx = .subject t → t.Before c) (hscope : ∀ j, ctx = .scope j → j < k) :
    (n : Node) → n.EveryName Ty.PlainName →
      Keeps c k (Check.typeOf d env ctx n) (fun r c' _ => r.1.Before c')
  | .mk f sp _, hn => by
    unfold Check.typeOf
    refine Keeps.bind Keeps.read fun σ c1 k1 hc1 hk1 _ => ?_
    dsimp only
    split
    · exact Keeps.throw_bind
    exact Keeps.bind (inferForm_keeps (d + 1) env ctx (by omega) (fun t h => (hctx t h).mono hc1)
      (fun j h => by have := hscope j h; omega) sp f hn) fun _ _ _ _ _ hr =>
        Keeps.pure fun _ _ h _ => hr.mono h

/-- `Check.typeOf_keeps` for a form. -/
theorem inferForm_keeps (d env : Nat) (ctx : Ctx) {c k : Nat} (henv : env < k)
    (hctx : ∀ t, ctx = .subject t → t.Before c) (hscope : ∀ j, ctx = .scope j → j < k)
    (sp : Span) :
    (f : Form) → Node.FormEveryName Ty.PlainName f →
      Keeps c k (Check.inferForm d env ctx sp f) (fun r c' _ => r.1.Before c')
  | .str _, _ => by
    unfold Check.inferForm
    exact Keeps.bind Keeps.read fun σ _ _ _ _ hσ => Keeps.pure fun c2 _ _ _ => hσ.before c2 _ (by simp)
  | .num l, _ => by
    unfold Check.inferForm
    refine Keeps.bind Keeps.read fun σ _ _ _ _ hσ => Keeps.pure fun c2 _ _ _ => ?_
    dsimp only
    split
    · exact hσ.before c2 _ (by simp)
    · exact hσ.before c2 _ (by simp)
  | .ident x, _ => by
    unfold Check.inferForm
    refine Keeps.bind (keeps_lookupName env x) fun o _ _ _ _ ho => ?_
    cases o with
    | none => exact Keeps.throw
    | some t => exact Keeps.pure fun _ _ h _ => (ho t rfl).mono h
  | .binary op l r, hn => by
    unfold Check.inferForm
    refine Keeps.bind Keeps.read fun σ c1 k1 hc1 hk1 hσ => ?_
    refine Keeps.bind (typeOf_keeps d env .plain (by omega) (fun _ h => by cases h)
      (fun _ h => by cases h) l hn.1) fun ⟨lt, l'⟩ c2 k2 hc2 hk2 hlt => ?_
    refine Keeps.bind (keeps_simp env hlt) fun lt c3 k3 hc3 hk3 hlt => ?_
    refine Keeps.bind (keeps_assignable env σ.builtins.int lt l.span.start) fun bl c4 k4 hc4 hk4 _ => ?_
    dsimp only
    cases bl
    · exact Keeps.throw_bind
    refine Keeps.bind (typeOf_keeps d env .plain (by omega) (fun _ h => by cases h)
      (fun _ h => by cases h) r hn.2) fun ⟨rt, r'⟩ c5 k5 hc5 hk5 hrt => ?_
    refine Keeps.bind (keeps_simp env hrt) fun rt c6 k6 hc6 hk6 hrt => ?_
    refine Keeps.bind (keeps_assignable env σ.builtins.int rt r.span.start) fun br _ _ _ _ _ => ?_
    dsimp only
    cases br
    · exact Keeps.throw_bind
    exact Keeps.pure fun c8 _ _ _ => hσ.before c8 _ (by simp)
  | .unary op o, hn => by
    unfold Check.inferForm
    refine Keeps.bind (typeOf_keeps d env .plain henv (fun _ h => by cases h)
      (fun _ h => by cases h) o hn) fun _ _ _ _ _ _ => ?_
    exact Keeps.bind Keeps.read fun σ _ _ _ _ hσ => Keeps.pure fun c3 _ _ _ => hσ.before c3 _ (by simp)
  | .func x ps body, hn => by
    unfold Check.inferForm
    refine Keeps.bind (keeps_lookupName env x) fun o c1 k1 hc1 hk1 ho => ?_
    extract_lets jp
    have hk : ∀ sig : Sig, ∀ c' k', c1 ≤ c' → k1 ≤ k' → sig.toTy.Before c' →
        Keeps c' k' (jp sig) (fun r c'' _ => r.1.Before c'') := fun sig c' k' hc' hk' hsig => by
      have hs := Sig.before_of_toTy hsig
      dsimp only [jp]
      by_cases hlen : sig.params.length ≠ ps.length
      · rw [if_pos hlen]
        exact Keeps.throw_bind
      rw [if_neg hlen]
      -- the parameters and the body go to the function's own frame
      refine Keeps.bind (keeps_openFrame (by omega)) fun scope c2 k2 hc2 hk2 hscope2 => ?_
      refine Keeps.bind (keeps_installGenerics scope (fun g h => (hs.generics g h).mono hc2)
        (fun o h => (hs.owner o h).mono hc2)) fun _ c3 k3 hc3 hk3 _ => ?_
      refine Keeps.bind (Keeps.forIn fun qt hq _ c' k' hc _ => ?_) fun _ c4 k4 hc4 hk4 _ => ?_
      · obtain ⟨hqs, ht⟩ := List.of_mem_zip hq
        exact Keeps.bind (keeps_bindName scope (below_of_not_mem (hn.2.1 _ hqs))
          ((hs.params _ ht).mono (by omega))) fun _ _ _ _ _ _ => Keeps.pure fun _ _ _ _ => trivial
      refine Keeps.bind (typeOf_keeps d scope .plain (by omega) (fun _ h => by cases h)
        (fun _ h => by cases h) body hn.2.2) fun ⟨bt, body'⟩ c5 k5 hc5 hk5 hbt => ?_
      refine Keeps.bind (keeps_simp scope (hs.ret.mono (by omega))) fun expected c6 k6 hc6 hk6 hexp => ?_
      refine Keeps.bind (keeps_simp scope (hbt.mono hc6)) fun actual c7 k7 hc7 hk7 hactual => ?_
      refine Keeps.bind (keeps_accepts scope (hexp.mono hc7) hactual body.span.start)
        fun b c8 k8 hc8 hk8 _ => ?_
      dsimp only
      cases b
      · exact Keeps.throw_bind
      exact Keeps.pure fun c9 _ hc9 _ =>
        Ty.before_fn_ret (hsig.mono (by omega)) (hactual.mono (by omega))
    cases o with
    | none => exact Keeps.throw_bind
    | some t =>
      simp only [Option.bind_some]
      cases hs : t.sig? with
      | none => exact Keeps.throw_bind
      | some sig =>
        exact Keeps.bind (Keeps.pure (Q := fun s c' _ => s.toTy.Before c')
          fun _ _ h _ => Ty.eq_toTy_of_sig? hs ▸ (ho t rfl).mono h) fun s c' k' hc' hk' hs' =>
            hk s c' k' hc' hk' hs'
  | .block items, hn => by
    unfold Check.inferForm
    extract_lets jp
    have hk : ∀ scope c' k', c ≤ c' → k ≤ k' → scope < k' →
        Keeps c' k' (jp scope) (fun r c'' _ => r.1.Before c'') := fun scope c' k' _ _ hs => by
      refine Keeps.bind Keeps.read fun σ c1 k1 hc1 hk1 hσ => ?_
      exact Keeps.bind (typeBlock_keeps d scope (by omega) (hσ.before c1 σ.builtins.void (by simp))
        items hn) fun _ _ _ _ _ hr => Keeps.pure fun _ _ h _ => hr.mono h
    -- the items go to the frame a `let` hands over, or to a new one
    cases ctx with
    | scope j =>
      exact Keeps.bind (Keeps.pure (Q := fun s _ k' => s < k') fun _ _ _ h => by
        have := hscope j rfl; omega) fun s c' k' hc' hk' hs => hk s c' k' hc' hk' hs
    | plain => exact Keeps.bind (keeps_openFrame henv) fun s c' k' hc' hk' hs => hk s c' k' hc' hk' hs
    | subject _ =>
      exact Keeps.bind (keeps_openFrame henv) fun s c' k' hc' hk' hs => hk s c' k' hc' hk' hs
  | .call callee args _, hn => by
    unfold Check.inferForm
    refine Keeps.bind (typeOf_keeps d env .plain henv (fun _ h => by cases h)
      (fun _ h => by cases h) callee hn.1) fun ⟨ct, callee'⟩ c1 k1 hc1 hk1 hct => ?_
    refine Keeps.bind (keeps_simp env hct) fun ct c2 k2 hc2 hk2 hct => ?_
    extract_lets jp
    have hk : ∀ f : Sig, ∀ c' k', c2 ≤ c' → k2 ≤ k' → f.toTy.Before c' →
        Keeps c' k' (jp f) (fun r c'' _ => r.1.Before c'') := fun f c' k' hc' hk' hf => by
      have hs := Sig.before_of_toTy hf
      refine Keeps.bind (keeps_openCall (by omega) hs.generics hs.owner _ _)
        fun scope c3 k3 hc3 hk3 ⟨hscope3, hlen⟩ => ?_
      refine Keeps.bind (typeArgs_keeps d env scope (by omega) f 1 args f.params
        (fun t ht => (hs.params t ht).mono hc3) hlen hn.2) fun _ c4 k4 hc4 hk4 _ => ?_
      refine Keeps.bind (keeps_closeCall (hs.mono (by omega)) scope) fun ret c5 k5 hc5 hk5 hret => ?_
      refine Keeps.bind (keeps_dispatchOf env scope fun o h => (hs.owner o h).mono (by omega))
        fun _ c6 k6 hc6 hk6 _ => ?_
      exact Keeps.bind (keeps_simp env (hret.mono hc6)) fun _ _ _ _ _ ht =>
        Keeps.pure fun _ _ h _ => ht.mono h
    cases hs : ct.sig? with
    | none => exact Keeps.throw_bind
    | some f =>
      exact Keeps.bind (Keeps.pure (Q := fun s c' _ => s.toTy.Before c')
        fun _ _ h _ => Ty.eq_toTy_of_sig? hs ▸ hct.mono h) fun s c' k' hc' hk' hs' =>
          hk s c' k' hc' hk' hs'
  | .cond c0 t none, hn => by
    unfold Check.inferForm
    refine Keeps.bind (typeOf_keeps d env .plain henv (fun _ h => by cases h)
      (fun _ h => by cases h) c0 hn.1) fun _ c1 k1 hc1 hk1 _ => ?_
    refine Keeps.bind (typeOf_keeps d env .plain (by omega) (fun _ h => by cases h)
      (fun _ h => by cases h) t hn.2) fun ⟨tt, t'⟩ _ _ _ _ htt => ?_
    exact Keeps.bind (keeps_simp env htt) fun _ _ _ _ _ ht => Keeps.pure fun _ _ h _ => ht.mono h
  | .cond c0 t (some e), hn => by
    unfold Check.inferForm
    refine Keeps.bind (typeOf_keeps d env .plain henv (fun _ h => by cases h)
      (fun _ h => by cases h) c0 hn.1) fun _ c1 k1 hc1 hk1 _ => ?_
    refine Keeps.bind (typeOf_keeps d env .plain (by omega) (fun _ h => by cases h)
      (fun _ h => by cases h) t hn.2.1) fun ⟨tt, t'⟩ c2 k2 hc2 hk2 htt => ?_
    refine Keeps.bind (keeps_simp env htt) fun it c3 k3 hc3 hk3 hit => ?_
    refine Keeps.bind (typeOf_keeps d env .plain (by omega) (fun _ h => by cases h)
      (fun _ h => by cases h) e hn.2.2) fun ⟨et, e'⟩ c4 k4 hc4 hk4 het => ?_
    refine Keeps.bind (keeps_simp env het) fun et c5 k5 hc5 hk5 het => ?_
    have hcur : ∀ u ∈ some it, u.Before c5 := fun _ h => by cases h; exact hit.mono (by omega)
    refine Keeps.bind (keeps_widen (by omega) hcur het sp.start) fun w _ _ _ _ hw => ?_
    cases w with
    | ok w => exact Keeps.pure fun _ _ h _ => (hw w rfl).mono h
    | error p =>
      cases p
      exact Keeps.throw
  | .list items, hn => by
    unfold Check.inferForm
    refine Keeps.bind (typeItems_keeps d env henv none (fun _ h => by cases h) items hn)
      fun ⟨elem, items'⟩ c1 k1 hc1 hk1 helem => ?_
    dsimp -zeta only
    extract_lets jp
    have hk : ∀ t c' k', c1 ≤ c' → t.Before c' →
        Keeps c' k' (jp t) (fun r c'' _ => r.1.Before c'') := fun t c' k' _ ht =>
      Keeps.bind Keeps.read fun σ _ _ _ _ hσ => Keeps.pure fun _ _ h _ =>
        Ty.before_app.2 ⟨hσ.before _ _ (by simp), fun u hu => by
          rw [List.mem_singleton.1 hu]
          exact ht.mono (by omega)⟩
    cases elem with
    | some t =>
      exact Keeps.bind (keeps_simp env (helem t rfl)) fun u c' k' hc' _ hu => hk u c' k' (by omega) hu
    | none =>
      refine Keeps.bind Keeps.read fun σ c2 k2 hc2 hk2 hσ => ?_
      exact Keeps.bind (keeps_freshGeneric (hσ.listGeneric c2)) fun u c' k' hc' _ hu =>
        hk u c' k' (by omega) hu
  | .matchOn value cases, hn => by
    unfold Check.inferForm
    refine Keeps.bind (typeOf_keeps d env .plain henv (fun _ h => by cases h)
      (fun _ h => by cases h) value hn.1) fun ⟨vt, value'⟩ c1 k1 hc1 hk1 hvt => ?_
    refine Keeps.bind (keeps_simp env hvt) fun subject c2 k2 hc2 hk2 hsub => ?_
    dsimp only
    by_cases he : cases.isEmpty = true
    · rw [if_pos he]
      exact Keeps.throw_bind
    rw [if_neg he]
    refine Keeps.bind (typeCases_keeps d env (by omega) hsub none (fun _ h => by cases h) cases hn.2)
      fun ⟨result, cases'⟩ c3 k3 hc3 hk3 hres => ?_
    dsimp only
    cases result with
    | some t =>
      exact Keeps.bind (keeps_simp env (hres t rfl)) fun _ _ _ _ _ ht =>
        Keeps.pure fun _ _ h _ => ht.mono h
    | none =>
      refine Keeps.bind Keeps.read fun σ _ _ _ _ hσ => ?_
      exact Keeps.bind (Keeps.pure (Q := fun t c' _ => t.Before c')
        fun c' _ _ _ => hσ.before c' _ (by simp)) fun _ _ _ _ _ ht => Keeps.pure fun _ _ h _ => ht.mono h
  | .case p body, hn => by
    unfold Check.inferForm
    cases hp : p.form with
    | pattern cn bs =>
      obtain ⟨-, hbs⟩ : Node.FormEveryName Ty.PlainName (.pattern cn bs) :=
        Node.formEveryName_of_form hn.1 hp
      refine Keeps.bind (keeps_lookupCtor env cn p.span.start) fun csig c1 k1 hc1 hk1 hcsig => ?_
      refine Keeps.bind (keeps_openFrame (by omega)) fun scope c2 k2 hc2 hk2 hscope2 => ?_
      -- a case binds its pattern against the subject of its `match`
      have hb : ∀ value : Option Ty, (∀ v ∈ value, v.Before c2) →
          Keeps c2 k2
            (do
              let p' ← Check.bindPattern p csig value scope
              let (bt, body') ← Check.typeOf d scope .plain body
              pure (bt, Form.case p' body')) (fun r c'' _ => r.1.Before c'') := fun value hv =>
        Keeps.bind (keeps_bindPattern hp hbs (hcsig.mono hc2) hv hscope2) fun _ c3 k3 _ hk3 _ =>
          Keeps.bind (typeOf_keeps d scope .plain (by omega) (fun _ h => by cases h)
            (fun _ h => by cases h) body hn.2) fun _ _ _ _ _ hr => Keeps.pure fun _ _ h _ => hr.mono h
      cases ctx with
      | subject t => exact hb (some t) fun _ h => by cases h; exact (hctx t rfl).mono (by omega)
      | plain => exact hb none (fun _ h => by cases h)
      | scope _ => exact hb none (fun _ h => by cases h)
    | _ => exact Keeps.throw
  | .letIn assignments body, hn => by
    unfold Check.inferForm
    refine Keeps.bind (keeps_openFrame henv) fun scope c1 k1 hc1 hk1 hs => ?_
    refine Keeps.bind (typeAssignments_keeps d scope hs assignments hn.1) fun _ c2 k2 hc2 hk2 _ => ?_
    exact Keeps.bind (typeOf_keeps d scope (.scope scope) (by omega) (fun _ h => by cases h)
      (fun j h => by cases h; omega) body hn.2) fun _ _ _ _ _ hr => Keeps.pure fun _ _ h _ => hr.mono h
  | .assign left value, hn => by
    unfold Check.inferForm
    refine Keeps.bind (typeOf_keeps d env .plain henv (fun _ h => by cases h)
      (fun _ h => by cases h) value hn.2) fun ⟨vt, value'⟩ c1 k1 hc1 hk1 hvt => ?_
    refine Keeps.bind (keeps_simp env hvt) fun v c2 k2 hc2 hk2 hv => ?_
    dsimp only
    cases hl : left.form with
    | ident x =>
      have hx : Ty.PlainName x := Node.formEveryName_of_form hn.1 hl
      exact Keeps.bind (keeps_bindName env (below_of_not_mem hx) hv) fun _ _ _ hc3 _ _ =>
        Keeps.pure fun _ _ h _ => hv.mono (hc3.trans h)
    | pattern cn bs =>
      obtain ⟨-, hbs⟩ : Node.FormEveryName Ty.PlainName (.pattern cn bs) :=
        Node.formEveryName_of_form hn.1 hl
      refine Keeps.bind (keeps_lookupCtor env cn left.span.start) fun csig c3 k3 hc3 hk3 hcsig => ?_
      refine Keeps.bind (keeps_assignable env v (owningType csig) left.span.start)
        fun b c4 k4 hc4 hk4 _ => ?_
      cases b
      · exact Keeps.throw_bind
      have hvalue : ∀ w ∈ some v, w.Before c4 := fun _ h => by cases h; exact hv.mono (by omega)
      exact Keeps.bind (keeps_bindPattern hl hbs (hcsig.mono hc4) hvalue (by omega))
        fun _ _ _ _ _ _ => Keeps.pure fun _ _ h _ => hv.mono (by omega)
    | _ => exact Keeps.throw
  | .construct x args, hn => by
    unfold Check.inferForm
    refine Keeps.bind (keeps_lookupName env x) fun o c1 k1 hc1 hk1 ho => ?_
    extract_lets jp
    have hk : ∀ csig : Sig, ∀ c' k', c1 ≤ c' → k1 ≤ k' → csig.Before c' ∧ csig.owner = none →
        Keeps c' k' (jp csig) (fun r c'' _ => r.1.Before c'') := fun csig c' k' hc' hk' hcs => by
      obtain ⟨hcs, hown⟩ := hcs
      refine Keeps.bind (keeps_openCall (by omega) hcs.generics (by simp [hown]) _ _)
        fun scope c3 k3 hc3 hk3 ⟨hscope3, hlen⟩ => ?_
      refine Keeps.bind (typeArgs_keeps d env scope (by omega) csig 1 args csig.params
        (fun t ht => (hcs.params t ht).mono hc3) hlen hn.2) fun _ c4 k4 hc4 hk4 _ => ?_
      exact Keeps.bind (keeps_closeCall (hcs.mono (by omega)) scope) fun _ _ _ _ _ hret =>
        Keeps.pure fun _ _ h _ => hret.mono h
    cases o with
    | none => exact Keeps.throw_bind
    | some t =>
      simp only [Option.bind_some]
      cases hc : t.ctorSig? with
      | none => exact Keeps.throw_bind
      | some csig =>
        exact Keeps.bind (Keeps.pure (Q := fun s c' _ => s.Before c' ∧ s.owner = none)
          fun _ _ h _ => ⟨(Sig.before_of_ctorSig? (ho t rfl) hc).mono h, Ty.owner_of_ctorSig? hc⟩)
          fun s c' k' hc' hk' hs => hk s c' k' hc' hk' hs
  | .pattern cn _, hn => by
    unfold Check.inferForm
    exact Keeps.bind (keeps_lookupCtor env cn sp.start) fun csig _ _ _ _ hc =>
      Keeps.pure fun _ _ h _ => owningType_before (hc.ret.mono h)

/-- The items of a block keep the store settled, and the type of the last was made before the
counter they leave. -/
theorem typeBlock_keeps (d scope : Nat) {c k : Nat} (hscope : scope < k) {last : Ty}
    (hlast : last.Before c) :
    (items : List Node) → Node.ListEveryName Ty.PlainName items →
      Keeps c k (Check.typeBlock d scope last items) (fun r c' _ => r.1.Before c')
  | [], _ => by
    unfold Check.typeBlock
    exact Keeps.pure fun _ _ h _ => hlast.mono h
  | n :: ns, hn => by
    unfold Check.typeBlock
    refine Keeps.bind (typeOf_keeps d scope .plain hscope (fun _ h => by cases h)
      (fun _ h => by cases h) n hn.1) fun ⟨t, n'⟩ c1 k1 hc1 hk1 ht => ?_
    exact Keeps.bind (typeBlock_keeps d scope (by omega) ht ns hn.2) fun _ _ _ _ _ hr =>
      Keeps.pure fun _ _ h _ => hr.mono h

/-- Arguments checked against parameters made before the counter keep the store settled. -/
theorem typeArgs_keeps (d env scope : Nat) {c k : Nat} (henv : env < k) (f : Sig) :
    (pos : Nat) → (as : List Node) → (ps : List Ty) → (∀ t ∈ ps, t.Before c) →
      as.length = ps.length → Node.ListEveryName Ty.PlainName as →
      Keeps c k (Check.typeArgs d env scope f pos as ps) (fun _ _ _ => True)
  | pos, a :: as, p :: ps, hps, hlen, hn => by
    obtain ⟨hp, hps⟩ := List.forall_mem_cons.1 hps
    unfold Check.typeArgs
    refine Keeps.bind (keeps_simp scope hp) fun expected c1 k1 hc1 hk1 hexp => ?_
    refine Keeps.bind (typeOf_keeps d env .plain (by omega) (fun _ h => by cases h)
      (fun _ h => by cases h) a hn.1) fun ⟨at_, a'⟩ c2 k2 hc2 hk2 hat => ?_
    refine Keeps.bind (keeps_simp env hat) fun actual c3 k3 hc3 hk3 hact => ?_
    refine Keeps.bind (keeps_accepts scope (hexp.mono (by omega)) hact a.span.start)
      fun b c4 k4 hc4 hk4 _ => ?_
    dsimp only
    cases b
    · -- an interface parameter names the interface left unimplemented
      cases expected with
      | iface r => exact Keeps.throw_bind
      | _ => exact Keeps.throw_bind
    exact Keeps.bind (typeArgs_keeps d env scope (by omega) f (pos + 1) as ps
      (fun t ht => (hps t ht).mono (by omega)) (by simpa using hlen) hn.2)
      fun _ _ _ _ _ _ => Keeps.pure fun _ _ _ _ => trivial
  | pos, [], ps, _, _, _ => by
    unfold Check.typeArgs
    exact Keeps.pure fun _ _ _ _ => trivial
  | pos, _ :: _, [], _, hlen, _ => by
    simp at hlen

/-- The elements of a list keep the store settled, and the element type they widen to was made
before the counter they leave. -/
theorem typeItems_keeps (d env : Nat) {c k : Nat} (henv : env < k) :
    (elem : Option Ty) → (∀ t ∈ elem, t.Before c) → (items : List Node) →
      Node.ListEveryName Ty.PlainName items →
      Keeps c k (Check.typeItems d env elem items) (fun r c' _ => ∀ t ∈ r.1, t.Before c')
  | _, he, [], _ => by
    unfold Check.typeItems
    exact Keeps.pure fun _ _ h _ t ht => (he t ht).mono h
  | elem, he, n :: ns, hn => by
    unfold Check.typeItems
    refine Keeps.bind (typeOf_keeps d env .plain henv (fun _ h => by cases h)
      (fun _ h => by cases h) n hn.1) fun ⟨t, n'⟩ c1 k1 hc1 hk1 ht => ?_
    refine Keeps.bind (keeps_simp env ht) fun t c2 k2 hc2 hk2 ht => ?_
    refine Keeps.bind (keeps_widen (by omega) (fun u hu => (he u hu).mono (by omega)) ht n.span.start)
      fun w c3 k3 hc3 hk3 hw => ?_
    cases w with
    | ok w =>
      exact Keeps.bind (typeItems_keeps d env (by omega) (some w) (fun _ h => by cases h; exact hw w rfl)
        ns hn.2) fun _ _ _ _ _ hr => Keeps.pure fun _ _ h _ t ht => (hr t ht).mono h
    | error p =>
      cases p
      exact Keeps.throw

/-- The cases of a match against a subject made before the counter keep the store settled, and
the result type they widen to was made before the counter they leave. -/
theorem typeCases_keeps (d env : Nat) {c k : Nat} (henv : env < k) {subject : Ty}
    (hs : subject.Before c) :
    (result : Option Ty) → (∀ t ∈ result, t.Before c) → (cases : List Node) →
      Node.ListEveryName Ty.PlainName cases →
      Keeps c k (Check.typeCases d env subject result cases) (fun r c' _ => ∀ t ∈ r.1, t.Before c')
  | _, hr, [], _ => by
    unfold Check.typeCases
    exact Keeps.pure fun _ _ h _ t ht => (hr t ht).mono h
  | result, hr, cn :: cs, hn => by
    unfold Check.typeCases
    refine Keeps.bind (typeOf_keeps d env (.subject subject) henv (fun t h => by cases h; exact hs)
      (fun _ h => by cases h) cn hn.1) fun ⟨t, c'⟩ c1 k1 hc1 hk1 ht => ?_
    refine Keeps.bind (keeps_simp env ht) fun t c2 k2 hc2 hk2 ht => ?_
    refine Keeps.bind (keeps_widen (by omega) (fun u hu => (hr u hu).mono (by omega)) ht cn.span.start)
      fun w c3 k3 hc3 hk3 hw => ?_
    cases w with
    | ok w =>
      exact Keeps.bind (typeCases_keeps d env (by omega) (hs.mono (by omega)) (some w)
        (fun _ h => by cases h; exact hw w rfl) cs hn.2) fun _ _ _ _ _ hr =>
          Keeps.pure fun _ _ h _ t ht => (hr t ht).mono h
    | error p =>
      cases p
      exact Keeps.throw

/-- The assignments of a `let` keep the store settled. -/
theorem typeAssignments_keeps (d scope : Nat) {c k : Nat} (hscope : scope < k) :
    (as : List Node) → Node.ListEveryName Ty.PlainName as →
      Keeps c k (Check.typeAssignments d scope as) (fun _ _ _ => True)
  | [], _ => by
    unfold Check.typeAssignments
    exact Keeps.pure fun _ _ _ _ => trivial
  | a :: as, hn => by
    unfold Check.typeAssignments
    refine Keeps.bind (typeOf_keeps d scope .plain hscope (fun _ h => by cases h)
      (fun _ h => by cases h) a hn.1) fun _ c1 k1 hc1 hk1 _ => ?_
    exact Keeps.bind (typeAssignments_keeps d scope (by omega) as hn.2) fun _ _ _ _ _ _ =>
      Keeps.pure fun _ _ _ _ => trivial

end

/-! ### Runs from a settled store -/

section Runs

variable {σ : Setting} {st : Store} {d : Nat}

/-- **Checking a node keeps its store settled.** In a setting with fixed built-in types, from a
settled store, checking a plainly named node in one of the store's frames leaves a settled
store with no fewer frames and a counter no smaller, whether it returns or stops at a fault;
the type it gives was made before that counter. -/
theorem typeOf_settled (hσ : σ.builtins.Fixed) (h : st.Settled) {env : Nat}
    (henv : env < st.scopes.frames.size) {n : Node} (hn : n.Named) :
    let after := (typeOf d env .plain n).exec σ st
    after.2.Settled ∧ st.fresh ≤ after.2.fresh ∧
      st.scopes.frames.size ≤ after.2.scopes.frames.size ∧
      ∀ r, after.1 = .ok r → r.1.Before after.2.fresh := by
  obtain ⟨hc, hk, hst, hr⟩ := typeOf_keeps d env .plain henv (fun _ h => by cases h)
    (fun _ h => by cases h) n (Node.Named.everyName n hn) σ st hσ h le_rfl le_rfl
  exact ⟨hst, hc, hk, hr⟩

/-- **Checking the items of a block keeps its store settled**, as `Check.typeOf_settled` for
one item, when the type the block has with no items was made before the counter. -/
theorem typeBlock_settled (hσ : σ.builtins.Fixed) (h : st.Settled) {scope : Nat}
    (hscope : scope < st.scopes.frames.size) {last : Ty} (hlast : last.Before st.fresh)
    {items : List Node} (hn : Node.ListNamed items) :
    let after := (typeBlock d scope last items).exec σ st
    after.2.Settled ∧ st.fresh ≤ after.2.fresh ∧
      st.scopes.frames.size ≤ after.2.scopes.frames.size ∧
      ∀ r, after.1 = .ok r → r.1.Before after.2.fresh := by
  obtain ⟨hc, hk, hst, hr⟩ := typeBlock_keeps d scope hscope hlast items
    (Node.ListNamed.everyName items hn) σ st hσ h le_rfl le_rfl
  exact ⟨hst, hc, hk, hr⟩

end Runs

end Check

section Read

variable {src : String} {toks : Array Token} {prog : Program}

/-- The setting a program is checked in. -/
abbrev Program.setting (prog : Program) (maxDepth : Nat) : Setting :=
  ⟨prog.decls, Builtins.ofDecls prog.decls, maxDepth, prog.decls.liveIfaces⟩

/-- **Checking a program read from its source ends in a settled store.** Whether it gives the
type of the root block or stops at a fault, the store the check leaves is settled, and the
type it gives is plain, with no generic a copy made after the check's last one. -/
theorem Program.check_settled (hscan : Token.scan src = .ok toks)
    (hread : Parse.program toks = .ok prog) (maxDepth : Nat) :
    let after := (Check.typeOf 0 0 .plain prog.body).exec (prog.setting maxDepth)
      ⟨Scopes.ofRoot prog.decls.env, 0⟩
    after.2.Settled ∧ ∀ r, check prog maxDepth = .ok r → r.1.Before after.2.fresh := by
  obtain ⟨hbody, hd⟩ := Program.written_of_source hscan hread
  obtain ⟨hst, -, -, hr⟩ := Check.typeOf_settled (σ := prog.setting maxDepth) (d := 0)
    hd.builtins_fixed hd.settled_root
    (show 0 < (Scopes.ofRoot prog.decls.env).frames.size by simp [Scopes.ofRoot]) hbody
  exact ⟨hst, fun r h => hr r (by rw [← check_eq_exec]; exact h)⟩

/-- **Every item of the root block of a read program starts from a settled store.** The items
are checked, in the frame the block opens inside the root, from a settled store with fixed
built-in types. Whatever items `pre` come before an item `e`, once they check without a fault
the store they leave is settled and still has that frame; `pre` are placed and plainly named,
and so is `e`. So checking an item after its siblings may take each of these for granted. -/
theorem Program.root_item_settled (hscan : Token.scan src = .ok toks)
    (hread : Parse.program toks = .ok prog) (maxDepth : Nat) {items : List Node}
    (hblock : prog.body.form = .block items) {pre post : List Node} {e : Node}
    (hsplit : items = pre ++ e :: post) {r : Ty × List Node} {st1 : Store}
    (hrun : (Check.typeBlock 1 1 (Builtins.ofDecls prog.decls).void pre).exec
      (prog.setting maxDepth) ⟨((Scopes.ofRoot prog.decls.env).child 0).1, 0⟩ = (.ok r, st1)) :
    st1.Settled ∧ 1 < st1.scopes.frames.size ∧ Node.ListPlaced pre ∧ Node.ListNamed pre ∧
      e.Named := by
  obtain ⟨hfixed, hst⟩ := Program.root_block_settled hscan hread
  -- the root block's items are placed and named as the root is
  have hitems : Node.ListPlaced items ∧ Node.ListNamed items := by
    have hplaced := Parse.program_placed hread
    have hnamed := (Program.written_of_source hscan hread).1
    cases hb : prog.body with
    | mk f sp t =>
      rw [hb] at hplaced hnamed hblock
      cases hblock
      exact ⟨hplaced, hnamed⟩
  rw [hsplit, Node.listPlaced_iff, Node.listNamed_iff] at hitems
  have hpre : Node.ListNamed pre := Node.listNamed_iff.2 fun n hn => hitems.2 n (by simp [hn])
  obtain ⟨hst1, -, hk, -⟩ := Check.typeBlock_settled (σ := prog.setting maxDepth) (d := 1)
    hfixed hst (show 1 < ((Scopes.ofRoot prog.decls.env).child 0).1.frames.size by
      simp [Scopes.child, Scopes.ofRoot])
    (hfixed.before 0 (Builtins.ofDecls prog.decls).void (by simp)) hpre
  rw [hrun] at hst1 hk
  refine ⟨hst1, lt_of_lt_of_le (by simp [Scopes.child, Scopes.ofRoot]) hk,
    Node.listPlaced_iff.2 fun n hn => hitems.1 n (by simp [hn]), hpre, hitems.2 e (by simp)⟩

end Read

end Verve
