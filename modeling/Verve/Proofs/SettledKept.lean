import Verve.Proofs.Settled
import Verve.Proofs.Chains
import Verve.Proofs.Frame

/-!
# Searches keep settled names

A search binds two kinds of names: the last name of a walk of generic-to-generic bindings that
ends in no type (the generic case of `View.solve`), and the parameter of an interface that
accepts an implementation (`View.solveIface`). Both are read through the bindings found so
far before those of the scopes. Neither is ever a settled name (`Scopes.Settled`): a walk that
ends in no type, or that comes round to a name it has left, or that reaches the interface whose
parameter it started from, leaves a generic or an interface when simplified. So every binding a
search finds is of a name that is not settled (`View.solve_unsettles`), committing it keeps
every settled name as it was, and so does any sequence of questions (`View.queries_keep_settled`).

Interfaces are declarations: two references to one declaration name one parameter. The
lemmas read that from a naming `gen` of the parameters that all the interfaces in play follow
(`Ty.ParamsBy`).
-/

namespace Verve

namespace Ty

mutual

/-- Every interface named in a type, at any depth, has the parameter that `gen` gives its
declaration. -/
def ParamsBy (gen : Nat → String) : Ty → Prop
  | .basic _ => True
  | .generic _ => True
  | .app h as => ParamsBy gen h ∧ ParamsByList gen as
  | .fn _ ps r _ _ => ParamsByList gen ps ∧ ParamsBy gen r
  | .iface r => r.generic = gen r.id
  | .enum _ => True
  | .data _ => True
  | .ctor _ _ ps r _ => ParamsByList gen ps ∧ ParamsBy gen r

/-- `ParamsBy` for every member of a list. -/
def ParamsByList (gen : Nat → String) : List Ty → Prop
  | [] => True
  | t :: ts => ParamsBy gen t ∧ ParamsByList gen ts

end

end Ty

namespace Scopes

variable {s : Scopes}

/-- Binding a list of names one after the other keeps the scopes grown within `W` when `W`
allows each name in that frame. -/
theorem Grows.foldl_set {W : Nat → String → Prop} {s0 : Scopes} {i : Nat} :
    ∀ {bs : Found} {s : Scopes}, s0.Grows W s →
      (∀ b ∈ bs, i < s0.frames.size → W i b.1) →
      s0.Grows W (bs.foldl (fun s b => s.set i b.1 b.2) s)
  | [], _, h, _ => h
  | b :: _, _, h, hbs => by
    rw [List.foldl_cons]
    exact foldl_set (h.set b.2 (hbs b List.mem_cons_self)) fun c hc =>
      hbs c (List.mem_cons_of_mem _ hc)

/-- Committing keeps the scopes grown within `W` when `W` allows every name committed in that
frame. -/
theorem Grows.commit_of_allowed {W : Nat → String → Prop} {s0 : Scopes} (h : s0.Grows W s)
    {i : Nat} {p : Found} (hp : ∀ b ∈ p, i < s0.frames.size → W i b.1) :
    s0.Grows W (s.commit i p) :=
  Grows.foldl_set h fun b hb => hp b (mem_of_mem_latestBindings hb)

theorem size_commit (s : Scopes) (i : Nat) (p : Found) :
    (s.commit i p).frames.size = s.frames.size := by
  unfold Scopes.commit
  induction latestBindings p generalizing s with
  | nil => rfl
  | cons b bs ih => rw [List.foldl_cons, ih, size_set]

/-- A name settled in a frame has a binding there, so the frame exists. -/
theorem frame_lt_of_settled {i : Nat} {x : String} (hx : s.Settled i x) : i < s.frames.size := by
  by_contra hi
  have hg : s.get i x = none := get_of_size_le x (by omega)
  rw [Settled, simplify_eq_simplifyWith, simplifyWith_generic_of_get_none s i rfl hg] at hx
  simp [Ty.stable] at hx

end Scopes

namespace View

open Chain Scopes

variable {gen : Nat → String} {v : View} {p : Found}

/-- What a search found: bindings of names that are not settled in the scopes, to types whose
interfaces follow `gen`. -/
structure Unsettles (gen : Nat → String) (v : View) (p : Found) : Prop where
  unsettled : ∀ b ∈ p, ¬ v.scopes.Settled v.frame b.1
  params : ∀ b ∈ p, b.2.ParamsBy gen

theorem unsettles_nil : v.Unsettles gen [] := ⟨by simp, by simp⟩

theorem Unsettles.cons (hp : v.Unsettles gen p) {u : String} (hu : ¬ v.scopes.Settled v.frame u)
    {a : Ty} (ha : a.ParamsBy gen) : v.Unsettles gen ((u, a) :: p) := by
  refine ⟨fun b hb => ?_, fun b hb => ?_⟩
  · rcases List.mem_cons.1 hb with rfl | hb
    · exact hu
    · exact hp.unsettled b hb
  · rcases List.mem_cons.1 hb with rfl | hb
    · exact ha
    · exact hp.params b hb

/-- A found name is not settled. -/
theorem Unsettles.of_lookup (hp : v.Unsettles gen p) {x : String} {t : Ty}
    (h : p.lookup x = some t) : ¬ v.scopes.Settled v.frame x := by
  obtain ⟨b, hb, rfl⟩ := List.mem_map.1 (Scopes.lookup_mem h)
  exact hp.unsettled b hb

/-- What a search reads follows `gen`, when the scopes and what it found do. -/
theorem Unsettles.look (hv : v.scopes.BindsAll (Ty.ParamsBy gen)) (hp : v.Unsettles gen p)
    {x : String} {t : Ty} (h : v.look p x = some t) : t.ParamsBy gen := by
  cases hl : p.lookup x with
  | some t' =>
    rw [v.look_of_lookup hl] at h
    cases h
    obtain ⟨b, hb, rfl⟩ := List.mem_map.1 (lookup_snd_mem hl)
    exact hp.params b hb
  | none =>
    rw [v.look_of_lookup_none hl] at h
    exact hv.get h

theorem look_nil (v : View) (x : String) : v.look [] x = v.scopes.get v.frame x := rfl

/-! ### Walks that end in no type leave what they reach open -/

section Walks

variable (hp : v.Unsettles gen p)
include hp

/-- A link from a name that was not found is a binding of the scopes; following it from a
name not being followed keeps the simplification of the name as unstable as that of the next. -/
theorem unstable_of_link {c c' : String} (hl : Link (v.look p) c c') (stk : List String)
    (h : stk.contains c = false →
      (v.scopes.simplifyWith v.frame (c :: stk) (.generic c')).stable = false) :
    (v.scopes.simplifyWith v.frame stk (.generic c)).stable = false := by
  cases hc : p.lookup c with
  | some t => exact stable_eq_false_of_not_settled (hp.of_lookup hc) stk
  | none =>
    have hb : v.scopes.get v.frame c = some (.generic c') :=
      (look_nil v c).symm.trans ((v.look_of_lookup_none hc).symm.trans hl)
    cases hs : stk.contains c with
    | true => rw [simplifyWith_generic_of_contains _ _ hs]; rfl
    | false =>
      rw [simplifyWith_generic_of_get _ _ hs hb]
      by_cases hself : c' = c
      · simp [hself, Ty.isGenericNamed, Ty.stable]
      · rw [if_neg (by simpa [Ty.isGenericNamed] using hself), if_neg (by simp [Ty.stable])]
        exact h hs

/-- A walk that reaches a name being followed leaves a generic: simplifying cuts it there. -/
theorem unstable_of_reaches_mem {c u : String} (h : Reaches (v.look p) c u) :
    ∀ stk : List String, u ∈ stk →
      (v.scopes.simplifyWith v.frame stk (.generic c)).stable = false := by
  induction h using Relation.ReflTransGen.head_induction_on with
  | refl =>
    intro stk hu
    rw [simplifyWith_generic_of_contains _ _ (by simpa using hu)]
    rfl
  | head hl _ ih =>
    intro stk hu
    exact unstable_of_link hp hl stk fun _ => ih _ (List.mem_cons_of_mem _ hu)

/-- A walk that reaches a terminal name, one with no binding or on a cycle of links, leaves a
generic when simplified. -/
theorem unstable_of_reaches_terminal {c u : String} (h : Reaches (v.look p) c u)
    (hu : Terminal (v.look p) u) :
    ∀ stk : List String, (v.scopes.simplifyWith v.frame stk (.generic c)).stable = false := by
  induction h using Relation.ReflTransGen.head_induction_on with
  | refl =>
    intro stk
    rcases hu with hn | ⟨y, hy, hyu⟩
    · -- no binding: neither found nor in the scopes
      have hl : p.lookup u = none := by
        cases hl : p.lookup u with
        | none => rfl
        | some t => rw [v.look_of_lookup hl] at hn; cases hn
      have hg : v.scopes.get v.frame u = none :=
        (look_nil v u).symm.trans ((v.look_of_lookup_none hl).symm.trans hn)
      cases hs : stk.contains u with
      | true => rw [simplifyWith_generic_of_contains _ _ hs]; rfl
      | false => rw [simplifyWith_generic_of_get_none _ _ hs hg]; rfl
    · exact unstable_of_link hp hy stk fun _ =>
        unstable_of_reaches_mem hp hyu _ List.mem_cons_self
  | head hl _ ih => exact fun stk => unstable_of_link hp hl stk fun _ => ih (_ :: stk)

/-- A walk that reaches a name bound to an interface whose parameter is being followed, or is
the walk's first name, leaves an interface when simplified. -/
theorem unstable_of_reaches_iface {c z : String} {r : IfaceRef} (h : Reaches (v.look p) c z)
    (hz : v.look p z = some (.iface r)) :
    ∀ stk : List String, r.generic ∈ c :: stk →
      (v.scopes.simplifyWith v.frame stk (.generic c)).stable = false := by
  induction h using Relation.ReflTransGen.head_induction_on with
  | refl =>
    intro stk hr
    cases hl : p.lookup z with
    | some t => exact stable_eq_false_of_not_settled (hp.of_lookup hl) stk
    | none =>
      have hb : v.scopes.get v.frame z = some (.iface r) :=
        (look_nil v z).symm.trans ((v.look_of_lookup_none hl).symm.trans hz)
      cases hs : stk.contains z with
      | true => rw [simplifyWith_generic_of_contains _ _ hs]; rfl
      | false =>
        rw [simplifyWith_generic_of_get _ _ hs hb, if_neg (by simp [Ty.isGenericNamed]),
          if_neg (by simp [Ty.stable]), simplifyWith_iface_of_contains _ _ (by simpa using hr)]
        rfl
  | head hl _ ih =>
    intro stk hr
    exact unstable_of_link hp hl stk fun _ => ih _ (List.mem_cons_of_mem _ hr)

/-- A name that fails to resolve is not settled, and neither is the name it fails at. -/
theorem not_settled_of_resolve_error {n u : String} (h : v.resolve p n [] rfl = .error u) :
    ¬ v.scopes.Settled v.frame n ∧ ¬ v.scopes.Settled v.frame u := by
  obtain ⟨hnu, hu⟩ := v.resolve_error p (fun _ h => absurd h List.not_mem_nil) h
  refine ⟨fun hs => ?_, fun hs => ?_⟩
  · rw [Settled, simplify_eq_simplifyWith, unstable_of_reaches_terminal hp hnu hu []] at hs
    cases hs
  · rw [Settled, simplify_eq_simplifyWith, unstable_of_reaches_terminal hp .refl hu []] at hs
    cases hs

/-- A name that resolves to an interface whose parameter it is is not settled. -/
theorem not_settled_of_resolve_iface {n : String} {r : IfaceRef}
    (h : v.resolve p n [] rfl = .ok (.iface r)) (hn : r.generic = n) :
    ¬ v.scopes.Settled v.frame n := by
  obtain ⟨z, hnz, hz, -⟩ := v.resolve_ok p h
  intro hs
  rw [Settled, simplify_eq_simplifyWith,
    unstable_of_reaches_iface hp hnz hz [] (by simp [hn])] at hs
  cases hs

end Walks

/-- What a name resolves to follows `gen`: it is a binding read. -/
theorem resolve_paramsBy (hv : v.scopes.BindsAll (Ty.ParamsBy gen)) (hp : v.Unsettles gen p)
    {x : String} {seen : List String} {hs : seen.contains x = false} {t : Ty}
    (h : v.resolve p x seen hs = .ok t) : t.ParamsBy gen := by
  obtain ⟨y, hy⟩ := v.resolve_ok_look p h
  exact hp.look hv hy

end View

/-- Where following interface parameters leads, for a search that found `p`: an interface
to bind has a parameter that is not settled, and a type to match follows `gen`. -/
def Lead.Fits (gen : Nat → String) (v : View) : Lead → Prop
  | .bind r => ¬ v.scopes.Settled v.frame r.generic
  | .solve b => b.ParamsBy gen
  | _ => True

/-- The bindings an outcome holds with are of names not settled, to types that follow `gen`. -/
def Outcome.Unsettles (gen : Nat → String) (v : View) : Outcome → Prop
  | .holds p => v.Unsettles gen p
  | _ => True

namespace View

variable {gen : Nat → String} {v : View} {p : Found}

/-- **Following interface parameters binds only an open parameter.** The induction is on the
fuel, one interface per step. An interface to bind is either one whose parameter fails to
resolve, or one whose parameter resolves to an interface of the same declaration, so to
itself as far as its parameter goes. -/
theorem chase_fits (hv : v.scopes.BindsAll (Ty.ParamsBy gen)) (hp : v.Unsettles gen p)
    {a : Ty} : ∀ (fuel : Nat) (seen : List Nat) (r : IfaceRef), r.generic = gen r.id →
      (v.chase p a fuel seen r).Fits gen v
  | 0, _, _, _ => trivial
  | fuel + 1, seen, r, hr => by
    rw [chase]
    split_ifs
    · trivial
    · trivial
    · split
      · rename_i r' hres
        have hr' : r'.generic = gen r'.id := by
          simpa [Ty.ParamsBy] using resolve_paramsBy hv hp hres
        split_ifs with hid
        · have hsame : r'.generic = r.generic := by rw [hr', hr, beq_iff_eq.1 hid]
          exact not_settled_of_resolve_iface hp hres hsame
        · exact chase_fits hv hp fuel _ r' hr'
      · exact resolve_paramsBy hv hp (by assumption)
      · exact (not_settled_of_resolve_error hp (by assumption)).1

/-! ### Searches bind open names only -/

mutual

/-- **A search binds only names that are not settled**, to types that follow `gen`, when the
expected and actual types follow `gen`. The names bound are the end of a walk that fails to
resolve, and the parameter of an interface that `chase_fits` allows. -/
theorem solve_unsettles (hv : v.scopes.BindsAll (Ty.ParamsBy gen)) (p : Found)
    (hp : v.Unsettles gen p) (e a : Ty) (hpe : e.ParamsBy gen) (hpa : a.ParamsBy gen) :
    (v.solve p e a).Unsettles gen v := by
  fun_cases v.solve p e a
  case case1 n b hb => exact solveBound_unsettles hv p hp b a (resolve_paramsBy hv hp hb) hpa
  case case2 n u hu hn => exact hp
  case case3 n u hu hn => exact hp.cons (not_settled_of_resolve_error hp hu).2 hpa
  case case4 r => exact solveIface_unsettles hv p hp r a hpe hpa
  case case5 hg hi => exact solveShape_unsettles hv p hp e a hpe hpa
termination_by (sizeOf a, 3)
decreasing_by all_goals exact Prod.Lex.right _ (by decide)

theorem solveBound_unsettles (hv : v.scopes.BindsAll (Ty.ParamsBy gen)) (p : Found)
    (hp : v.Unsettles gen p) (b a : Ty) (hpb : b.ParamsBy gen) (hpa : a.ParamsBy gen) :
    (v.solveBound p b a).Unsettles gen v := by
  fun_cases v.solveBound p b a
  case case1 r => exact solveIface_unsettles hv p hp r a hpb hpa
  case case2 hi => exact solveShape_unsettles hv p hp b a hpb hpa
termination_by (sizeOf a, 2)
decreasing_by all_goals exact Prod.Lex.right _ (by decide)

theorem solveIface_unsettles (hv : v.scopes.BindsAll (Ty.ParamsBy gen)) (p : Found)
    (hp : v.Unsettles gen p) (r : IfaceRef) (a : Ty) (hpr : (Ty.iface r).ParamsBy gen)
    (hpa : a.ParamsBy gen) : (v.solveIface p r a).Unsettles gen v := by
  have hc := chase_fits hv hp (a := a) (p.length + v.scopes.bound + 2) [] r hpr
  rw [solveIface.eq_1]
  split
  · exact hp
  · rename_i r' hr'
    rw [hr'] at hc
    split
    · exact hp.cons hc hpa
    · trivial
  · rename_i b hb
    rw [hb] at hc
    exact solveShape_unsettles hv p hp b a hc hpa
  · trivial
termination_by (sizeOf a, 1)
decreasing_by all_goals exact Prod.Lex.right _ (by decide)

theorem solveShape_unsettles (hv : v.scopes.BindsAll (Ty.ParamsBy gen)) (p : Found)
    (hp : v.Unsettles gen p) (e a : Ty) (hpe : e.ParamsBy gen) (hpa : a.ParamsBy gen) :
    (v.solveShape p e a).Unsettles gen v := by
  fun_cases v.solveShape p e a
  case case4 he es ha as hc => exact solveArgs_unsettles hv p hp true es as hpe.2 hpa.2
  case case14 n ps r gs o n' ps' r' gs' o' hlen p' hargs =>
    have h := solveArgs_unsettles hv p hp false ps ps' hpe.1 hpa.1
    rw [hargs] at h
    exact solve_unsettles hv p' h r r' hpe.2 hpa.2
  case case15 n ps r gs o n' ps' r' gs' o' hlen hargs =>
    exact solveArgs_unsettles hv p hp false ps ps' hpe.1 hpa.1
  case case2 | case6 | case8 | case10 | case12 => exact hp
  case case1 | case3 | case5 | case7 | case9 | case11 | case13 | case16 | case17 => trivial
termination_by (sizeOf a, 0)
decreasing_by
  all_goals
    apply Prod.Lex.left
    subst_vars
    simp only [Ty.app.sizeOf_spec, Ty.fn.sizeOf_spec]
    omega

theorem solveArgs_unsettles (hv : v.scopes.BindsAll (Ty.ParamsBy gen)) (p : Found)
    (hp : v.Unsettles gen p) (sg : Bool) (es as : List Ty) (hpe : Ty.ParamsByList gen es)
    (hpa : Ty.ParamsByList gen as) : (v.solveArgs p sg es as).Unsettles gen v := by
  fun_cases v.solveArgs p sg es as
  case case1 e es a as hg => exact solveArgs_unsettles hv p hp sg es as hpe.2 hpa.2
  case case2 e es a as hg p' hs =>
    have h := solve_unsettles hv p hp e a hpe.1 hpa.1
    rw [hs] at h
    exact solveArgs_unsettles hv p' h sg es as hpe.2 hpa.2
  case case3 e es a as hg hs => exact solve_unsettles hv p hp e a hpe.1 hpa.1
  case case4 => exact hp
termination_by (sizeOf as, 0)
decreasing_by
  all_goals
    apply Prod.Lex.left
    subst_vars
    simp only [List.cons.sizeOf_spec]
    omega

end

/-- Unifying binds only names that are not settled: it commits what the search found, or
nothing. -/
theorem unify_commits (hv : v.scopes.BindsAll (Ty.ParamsBy gen)) {e a : Ty}
    (hpe : e.ParamsBy gen) (hpa : a.ParamsBy gen) :
    ∃ p, v.Unsettles gen p ∧ (v.unify e a).2 = v.scopes.commit v.frame p := by
  have h := solve_unsettles hv [] unsettles_nil e a hpe hpa
  obtain ⟨scopes, frame, decls⟩ := v
  unfold unify
  cases hs : View.solve ⟨scopes, frame, decls⟩ [] e a with
  | holds p =>
    rw [hs] at h
    exact ⟨p, h, rfl⟩
  | fails => exact ⟨[], unsettles_nil, rfl⟩
  | endless => exact ⟨[], unsettles_nil, rfl⟩

theorem accepts_commits (hv : v.scopes.BindsAll (Ty.ParamsBy gen)) {e a : Ty}
    (hpe : e.ParamsBy gen) (hpa : a.ParamsBy gen) :
    ∃ p, v.Unsettles gen p ∧ (v.accepts e a).2 = v.scopes.commit v.frame p := by
  unfold accepts
  split
  · exact unify_commits hv hpe hpa
  · exact ⟨[], unsettles_nil, rfl⟩

/-- Committing what a search found keeps the binding of every settled name. -/
theorem Unsettles.get_commit (hp : v.Unsettles gen p) {y : String}
    (hy : v.scopes.Settled v.frame y) :
    (v.scopes.commit v.frame p).get v.frame y = v.scopes.get v.frame y := by
  have hn : p.lookup y = none := by
    cases hl : p.lookup y with
    | none => rfl
    | some t => exact absurd hy (hp.of_lookup hl)
  rw [v.get_commit (Scopes.frame_lt_of_settled hy), v.look_of_lookup_none hn]
  rfl

end View

/-- A question about an expected and an actual type, as the checker asks it of a view: whether
the actual type may stand for the expected one, whether they unify, binding what was found,
and whether the actual type is accepted, unified when it may stand for the expected one. -/
inductive Query where
  | assignable (e a : Ty)
  | unify (e a : Ty)
  | accepts (e a : Ty)

/-- Both types of a question follow `gen`. -/
def Query.ParamsBy (gen : Nat → String) : Query → Prop
  | .assignable e a | .unify e a | .accepts e a => e.ParamsBy gen ∧ a.ParamsBy gen

namespace View

/-- The scopes after a question is answered. -/
def answer (v : View) : Query → Scopes
  | .assignable _ _ => v.scopes
  | .unify e a => (v.unify e a).2
  | .accepts e a => (v.accepts e a).2

/-- The scopes after a sequence of questions, each asked of the scopes the one before left. -/
def answerAll (v : View) : List Query → Scopes
  | [] => v.scopes
  | q :: qs => answerAll { v with scopes := v.answer q } qs

variable {gen : Nat → String} {v : View}

theorem answer_commits (hv : v.scopes.BindsAll (Ty.ParamsBy gen)) {q : Query}
    (hq : q.ParamsBy gen) :
    ∃ p, v.Unsettles gen p ∧ v.answer q = v.scopes.commit v.frame p := by
  cases q with
  | assignable e a => exact ⟨[], unsettles_nil, rfl⟩
  | unify e a => exact unify_commits hv hq.1 hq.2
  | accepts e a => exact accepts_commits hv hq.1 hq.2

end View

namespace Scopes

/-- `s` keeps what was settled in frame `i` of `s0`: it has the frames of `s0` and no more, it
grew only in frame `i` and only by names not settled there, and every settled name
simplifies as it did. -/
structure KeepsSettled (s0 : Scopes) (i : Nat) (s : Scopes) : Prop where
  grows : s0.Grows (fun j y => j = i ∧ ¬ s0.Settled i y) s
  size : s.frames.size = s0.frames.size
  simplify : ∀ x, s0.Settled i x → s.simplify i (.generic x) = s0.simplify i (.generic x)

variable {s0 s : Scopes} {i : Nat}

theorem KeepsSettled.refl (s0 : Scopes) (i : Nat) : s0.KeepsSettled i s0 :=
  ⟨.refl s0, rfl, fun _ _ => rfl⟩

theorem KeepsSettled.settled (h : s0.KeepsSettled i s) {x : String} (hx : s0.Settled i x) :
    s.Settled i x := by
  rw [Settled, h.simplify x hx]
  exact hx

/-- **One commit keeps what was settled**: a search binds only names not settled in the scopes
it reads, and those were not settled in `s0` either. -/
theorem KeepsSettled.commit {gen : Nat → String} {d : Decls} {p : Found}
    (h : s0.KeepsSettled i s) (hp : View.Unsettles gen ⟨s, i, d⟩ p) :
    s0.KeepsSettled i (s.commit i p) := by
  refine ⟨h.grows.commit_of_allowed fun b hb _ => ⟨rfl, fun hs => ?_⟩, ?_, fun x hx => ?_⟩
  · exact hp.unsettled b hb (h.settled hs)
  · rw [size_commit, h.size]
  · rw [← h.simplify x hx]
    exact simplify_agree (h.settled hx) fun y hy => hp.get_commit hy

end Scopes

namespace View

variable {gen : Nat → String}

/-- Answering questions one after the other keeps what was settled: each answer commits a
search of the scopes the one before left. -/
theorem answerAll_keepsSettled {s0 : Scopes} :
    ∀ (qs : List Query) (v : View), v.scopes.BindsAll (Ty.ParamsBy gen) →
      (∀ q ∈ qs, q.ParamsBy gen) → s0.KeepsSettled v.frame v.scopes →
        s0.KeepsSettled v.frame (v.answerAll qs)
  | [], _, _, _, h => h
  | q :: qs, v, hv, hqs, h => by
    obtain ⟨p, hp, he⟩ := answer_commits hv (hqs q List.mem_cons_self)
    have hv' : (v.answer q).BindsAll (Ty.ParamsBy gen) := by
      rw [he]
      exact hv.commit v.frame hp.params
    have h' : s0.KeepsSettled v.frame (v.answer q) := by
      rw [he]
      exact h.commit hp
    exact answerAll_keepsSettled qs { v with scopes := v.answer q } hv'
      (fun q' hq' => hqs q' (List.mem_cons_of_mem _ hq')) h'

/-- **Bindings are never clobbered.** Ask a view any sequence of questions, whether a type may
stand for another, unify them or accept one for the other, about any types whose interfaces
have the parameters their declarations give them, as those bound in the scopes do. Every name
that simplified in the view's frame to a stable type, every ground type among them,
simplifies to it after the sequence; the scopes have the same frames, and only the view's
frame gained bindings, of names that were not settled. So a name fixed by one argument of a
call is never bound again by a later one. -/
theorem queries_keep_settled (v : View) (hv : v.scopes.BindsAll (Ty.ParamsBy gen))
    (qs : List Query) (hqs : ∀ q ∈ qs, q.ParamsBy gen) :
    (∀ x, v.scopes.Settled v.frame x →
      (v.answerAll qs).simplify v.frame (.generic x) = v.scopes.simplify v.frame (.generic x)) ∧
    v.scopes.Grows (fun j y => j = v.frame ∧ ¬ v.scopes.Settled v.frame y) (v.answerAll qs) ∧
    (v.answerAll qs).frames.size = v.scopes.frames.size := by
  have h := answerAll_keepsSettled qs v hv hqs (.refl v.scopes v.frame)
  exact ⟨h.simplify, h.grows, h.size⟩

/-- A root frame binding `T` to `Int`, with `U` open. -/
def rootIntView : View := ⟨Scopes.ofRoot [("T", .basic "Int")], 0, Decls.initial⟩

/-- Unify the open `U` with `Float`, then accept `Int` for `T`. -/
def rootIntQueries : List Query :=
  [.unify (.generic "U") (.basic "Float"), .accepts (.generic "T") (.basic "Int")]

/-- `T`, settled at `Int` in the root frame, simplifies as it did after unifying the open `U`
and accepting `Int` for `T`. -/
theorem queries_keep_root_int :
    rootIntView.scopes.BindsAll (Ty.ParamsBy fun _ => "T") ∧
      (∀ q ∈ rootIntQueries, q.ParamsBy fun _ => "T") ∧ rootIntView.scopes.Settled 0 "T" ∧
      (rootIntView.answerAll rootIntQueries).simplify 0 (.generic "T") =
        rootIntView.scopes.simplify 0 (.generic "T") := by
  have hv : rootIntView.scopes.BindsAll (Ty.ParamsBy fun _ => "T") := by
    simp [Scopes.BindsAll, rootIntView, Scopes.ofRoot, Scopes.boundTypes, Ty.ParamsBy]
  have hqs : ∀ q ∈ rootIntQueries, q.ParamsBy fun _ => "T" := by
    simp [rootIntQueries, Query.ParamsBy, Ty.ParamsBy]
  have hT : rootIntView.scopes.Settled 0 "T" := by
    have hg : rootIntView.scopes.get 0 "T" = some (.basic "Int") := by rw [Scopes.get]; rfl
    rw [Scopes.Settled, Scopes.simplify_eq_simplifyWith,
      Scopes.simplifyWith_generic_of_get _ _ rfl hg]
    rfl
  exact ⟨hv, hqs, hT, (View.queries_keep_settled rootIntView hv rootIntQueries hqs).1 "T" hT⟩

end View

end Verve
