import Mathlib.Data.List.Pairwise
import Verve.Proofs.Unfold

/-!
# What unification matches

`View.unify e a` searches for bindings of generics under which the expected type `e` matches
the actual type `a`, and when the search holds, writes them into the frame. For well-formed
types, an actual type with no generic, and scopes whose bindings are well-formed
(`View.Formed`), it does what it should (`View.unify_iff_assigns`):

* it holds exactly when some assignment of types to the generics that the scopes leave open
  (`View.Assigns`) makes `e` simplify to `a` once the assignment is written into the frame;
* when it holds, `e` simplifies to `a` in the scopes it leaves.

An assignment binds names that fail to resolve in the scopes, to well-formed types, and never
two names whose walks meet: names joined by generic-to-generic bindings stand for one unknown.

Both directions measure the search against unfolding (`Ty.Unfolds`) in the bindings it reads,
the found ones first:

* soundness (`View.solve_sound`): a search that holds has found bindings (`View.Pending`)
  under which `e` unfolds to `a`; it binds terminal names of walks that end in no type, to
  parts of `a`, and keeps every walk that ended before;
* completeness (`View.solve_complete`): if `e` unfolds to `a` under an assignment, the search
  holds, and what it finds agrees with the assignment (`View.Agrees`).

A well-formed application of an enum has an argument. An enum with no generics applied to
none is matched against the enum itself, although no bindings make one simplify to the other
(`View.unify_empty_application`); an application of a type constructor is only ever matched
against another application.
-/

namespace Verve

open Chain Ty

theorem Ty.isGeneric_of_stable {t : Ty} (h : t.stable = true) : t.isGeneric = false := by
  cases t <;> simp_all [stable, isGeneric]

/-- A type that is the same as one with no generic at its head has none there either. -/
theorem Ty.isGeneric_of_same {x y : Ty} (h : x.same y = true) (hx : x.isGeneric = false) :
    y.isGeneric = false := by
  cases x <;> cases y <;> simp_all [same, isGeneric]

namespace View

variable (arity : Nat → Nat) (v : View)

/-- Scopes whose frame exists, with well-formed bindings seen from it. -/
structure Formed : Prop where
  frame_lt : v.frame < v.scopes.frames.size
  binds : ∀ x t, v.scopes.get v.frame x = some t → t.WellFormed arity

/-- An assignment of types to the generics that the scopes leave open: each name fails to
resolve in the scopes, no two names have walks that meet, and each type is well-formed. -/
structure Assigns (β : Found) : Prop where
  unresolved : ∀ b ∈ β, ∃ u, v.resolve [] b.1 [] rfl = .error u
  apart : (β.map (·.1)).Pairwise fun x y => ¬ Joined (v.look []) x y
  formed : ∀ b ∈ β, b.2.WellFormed arity

/-- What a search against an actual type with no generic finds: well-formed types with no
generic, bound to terminal names of walks that end in no type in the scopes, no two of them
joined. -/
structure Pending (p : Found) : Prop where
  formed : ∀ b ∈ p, b.2.WellFormed arity
  stable : ∀ b ∈ p, b.2.stable = true
  terminal : ∀ b ∈ p, Terminal (v.look []) b.1
  apart : (p.map (·.1)).Pairwise fun x y => ¬ Joined (v.look []) x y

/-- Found bindings agree with an assignment: a name whose walk in the scopes reaches a found
name unfolds, under the assignment, to the type found for it. -/
def Agrees (β p : Found) : Prop :=
  ∀ z t, p.lookup z = some t → ∀ g x d, Reaches (v.look []) g z →
    Unfolds (v.look β) d (.generic g) x → t.same x = true

variable {arity v}

section Search

/-! How the search goes on well-formed types: a type that is no generic is matched by its
shape, and a list of arguments with no generic one after the other. -/

theorem solve_generic_ok {p : Found} {n : String} {b : Ty} (a : Ty)
    (h : v.resolve p n [] rfl = .ok b) : v.solve p (.generic n) a = v.solveBound p b a := by
  rw [solve.eq_def]
  simp only [h]

theorem solve_generic_error {p : Found} {n u : String} (a : Ty)
    (h : v.resolve p n [] rfl = .error u) :
    v.solve p (.generic n) a = if a.isGenericNamed u then .holds p else .holds ((u, a) :: p) := by
  rw [solve.eq_def]
  simp only [h]

theorem solve_of_formed (p : Found) {e : Ty} (a : Ty) (he : e.WellFormed arity)
    (hg : e.isGeneric = false) : v.solve p e a = v.solveShape p e a := by
  cases he with
  | generic x => simp [isGeneric] at hg
  | _ => rw [solve.eq_def]

theorem solveBound_of_formed (p : Found) {b : Ty} (a : Ty) (hb : b.WellFormed arity) :
    v.solveBound p b a = v.solveShape p b a := by
  cases hb <;> rw [solveBound.eq_def]

theorem solveArgs_nil (p : Found) (sg : Bool) : v.solveArgs p sg [] [] = .holds p := by
  rw [solveArgs.eq_def]

theorem solveArgs_cons_holds {p p' : Found} {e a : Ty} (es as : List Ty)
    (ha : a.isGeneric = false) (h : v.solve p e a = .holds p') :
    v.solveArgs p true (e :: es) (a :: as) = v.solveArgs p' true es as := by
  rw [solveArgs.eq_def]
  simp only [ha, h, Bool.and_false, Bool.false_eq_true, if_false]

/-- A well-formed expected type with no generic matches every actual type that is the same,
and binds nothing. -/
theorem solveShape_of_same (p : Found) {b : Ty} (hb : b.WellFormed arity) :
    ∀ {a : Ty}, b.stable = true → b.same a = true → v.solveShape p b a = .holds p := by
  induction hb with
  | basic x =>
    intro a _ hs
    cases a <;> simp [Ty.same] at hs
    rw [solveShape.eq_def]
    simp [hs]
  | generic x => intro a hbs; simp [stable] at hbs
  | enum _ =>
    intro a _ hs
    cases a <;> simp [Ty.same] at hs
    rw [solveShape.eq_def]
    simp [hs]
  | @app h args hh hargs ih =>
    intro a hbs hs
    cases a with
    | app h' as =>
      simp only [Ty.same, Bool.and_eq_true, sameList_iff_forall₂] at hs
      simp only [stable, Bool.and_eq_true, stableList_iff] at hbs
      obtain ⟨hhs, has⟩ := hs
      rw [solveShape.eq_def]
      simp only [hh.sameDecl_eq_same h', hhs, has.length_eq, beq_self_eq_true, Bool.and_self,
        if_true]
      -- the arguments match one after the other, each binding nothing
      have hrun : ∀ {xs ys : List Ty}, (∀ x ∈ xs, x ∈ args) →
          List.Forall₂ (fun a b => a.same b = true) xs ys → v.solveArgs p true xs ys = .holds p := by
        intro xs ys hsub h
        induction h with
        | nil => exact solveArgs_nil p true
        | @cons x y xs ys hxy _ ih' =>
          have hx := hsub x List.mem_cons_self
          have hxs := hbs.2 x hx
          have hyg : y.isGeneric = false := Ty.isGeneric_of_same hxy (isGeneric_of_stable hxs)
          have hsx : v.solve p x y = .holds p := by
            rw [solve_of_formed p y (hargs x hx) (isGeneric_of_stable hxs)]
            exact ih x hx hxs hxy
          rw [solveArgs_cons_holds xs ys hyg hsx]
          exact ih' fun z hz => hsub z (List.mem_cons_of_mem _ hz)
      exact hrun (fun _ h => h) has
    | _ => simp [Ty.same] at hs

end Search

section Found

theorem pending_nil : v.Pending arity [] := ⟨by simp, by simp, by simp, .nil⟩

theorem Pending.isGeneric {p : Found} (hp : v.Pending arity p) :
    ∀ b ∈ p, b.2.isGeneric = false :=
  fun b hb => isGeneric_of_stable (hp.stable b hb)

/-- What a search reads is well-formed, when what it found is. -/
theorem Formed.look (hv : v.Formed arity) {p : Found} (hp : ∀ b ∈ p, b.2.WellFormed arity)
    {x : String} {t : Ty} (h : v.look p x = some t) : t.WellFormed arity := by
  cases hl : p.lookup x with
  | some t' =>
    rw [v.look_of_lookup hl] at h
    cases h
    obtain ⟨b, hb, rfl⟩ := List.mem_map.1 (lookup_snd_mem hl)
    exact hp b hb
  | none =>
    rw [v.look_of_lookup_none hl] at h
    exact hv.binds x t h

/-- The search binds the terminal name at which a walk fails: its bindings stay pending, and
every walk that ended still ends as it did. -/
theorem Pending.cons {p : Found} (hp : v.Pending arity p) {n u : String}
    (hu : v.resolve p n [] rfl = .error u) {a : Ty} (ha : a.WellFormed arity)
    (hg : a.stable = true) :
    v.Pending arity ((u, a) :: p) ∧ Keeps (v.look p) (v.look ((u, a) :: p)) := by
  obtain ⟨-, hterm⟩ := v.resolve_error p (fun _ h => absurd h List.not_mem_nil) hu
  have hopen : ¬ Ends (v.look p) u := hterm.not_ends
  refine ⟨⟨?_, ?_, ?_, ?_⟩, fun w hw => v.look_cons_ne fun h => hopen (h ▸ hw)⟩
  · intro b hb
    rcases List.mem_cons.1 hb with rfl | hb
    · exact ha
    · exact hp.formed b hb
  · intro b hb
    rcases List.mem_cons.1 hb with rfl | hb
    · exact hg
    · exact hp.stable b hb
  · intro b hb
    rcases List.mem_cons.1 hb with rfl | hb
    · exact terminal_nil hp.isGeneric hterm
    · exact hp.terminal b hb
  · rw [List.map_cons, List.pairwise_cons]
    refine ⟨fun w hw hj => hopen ?_, hp.apart⟩
    -- a walk that meets the walk of a found name reaches that name, and ends there
    obtain ⟨b, hb, rfl⟩ := List.mem_map.1 hw
    exact ends_found_of_reaches hp.isGeneric ((hp.terminal b hb).reaches_of_joined hj) hw

/-- Found bindings are an assignment. -/
theorem Pending.assigns {p : Found} (hp : v.Pending arity p) : v.Assigns arity p :=
  ⟨fun b hb => (v.resolve_error_iff []).2 (hp.terminal b hb).not_ends, hp.apart, hp.formed⟩

theorem agrees_nil (β : Found) : v.Agrees β [] := by
  intro z t h
  simp at h

theorem Assigns.not_ends {β : Found} (hβ : v.Assigns arity β) {w : String}
    (hw : w ∈ β.map (·.1)) : ¬ Ends (v.look []) w := by
  obtain ⟨b, hb, rfl⟩ := List.mem_map.1 hw
  exact (v.resolve_error_iff []).1 (hβ.unresolved b hb)

/-- An assignment keeps every walk that ends in the scopes. -/
theorem Assigns.keeps {β : Found} (hβ : v.Assigns arity β) : Keeps (v.look []) (v.look β) := by
  intro w hw
  cases hl : β.lookup w with
  | some t => exact absurd hw (hβ.not_ends (Scopes.lookup_mem hl))
  | none => exact v.look_of_lookup_none hl

/-- Two assigned names whose walks meet are one name. -/
theorem Assigns.eq_of_joined {β : Found} (hβ : v.Assigns arity β) {y y' : String}
    (hy : y ∈ β.map (·.1)) (hy' : y' ∈ β.map (·.1)) (h : Joined (v.look []) y y') : y = y' := by
  have : Std.Symm fun x y => ¬ Joined (v.look []) x y := ⟨fun _ _ h hj => h (symm hj)⟩
  rcases eq_or_ne y y' with hyy | hyy
  · exact hyy
  · exact absurd h (hβ.apart.forall hy hy' hyy)

/-- Under an assignment, a name whose walk ends in no type in the scopes unfolds through the
first assigned name on its walk. -/
theorem first_assigned {β : Found} {d : Nat} {g : String} {x : Ty}
    (h : Unfolds (v.look β) d (.generic g) x) (hg : ¬ Ends (v.look []) g) :
    ∃ y s, β.lookup y = some s ∧ Reaches (v.look []) g y ∧ ∃ d', Unfolds (v.look β) d' s x := by
  induction d generalizing g with
  | zero => exact h.elim
  | succ d ih =>
    obtain ⟨b, hb, hn, hu⟩ := h
    cases hl : β.lookup g with
    | some s =>
      rw [v.look_of_lookup hl] at hb
      cases hb
      exact ⟨g, _, hl, .refl, d, hu⟩
    | none =>
      rw [v.look_of_lookup_none hl] at hb
      -- in the scopes `g` is bound to another generic, whose walk ends in no type either
      cases b with
      | generic m =>
        obtain ⟨y, s, hy, hmy, hs⟩ := ih hu fun hm => hg (hm.of_reaches (.single hb))
        exact ⟨y, s, hy, .head hb hmy, hs⟩
      | _ => exact absurd (ends_of_bound hb rfl) hg

/-- Binding the terminal name of a failing walk to what the walk's generic unfolds to keeps
the found bindings in agreement with an assignment. -/
theorem Agrees.cons {β p : Found} (hag : v.Agrees β p) (hβ : v.Assigns arity β)
    (hp : v.Pending arity p) {n u : String} (hu : v.resolve p n [] rfl = .error u) {a : Ty}
    {d : Nat} (hd : Unfolds (v.look β) d (.generic n) a) : v.Agrees β ((u, a) :: p) := by
  obtain ⟨hnu, hterm⟩ := v.resolve_error p (fun _ h => absurd h List.not_mem_nil) hu
  have hopen : ¬ Ends (v.look []) u := fun h => hterm.not_ends (ends_found hp.isGeneric h)
  have hterm' := terminal_nil hp.isGeneric hterm
  have hnu' := reaches_nil hp.isGeneric hnu
  intro z t hl g x d' hgz hx
  by_cases hzu : z = u
  · subst hzu
    obtain rfl : a = t := by simpa using hl
    -- `n` and `g` unfold through the first assigned names on their walks, and those are one
    obtain ⟨y, s, hy, hny, e, he⟩ := first_assigned hd (not_ends_of_reaches hnu' hopen)
    obtain ⟨y', s', hy', hgy', e', he'⟩ := first_assigned hx (not_ends_of_reaches hgz hopen)
    have hyz := hterm'.reaches_of_joined (joined_of_reaches hny hnu')
    have hyz' := hterm'.reaches_of_joined (joined_of_reaches hgy' hgz)
    obtain rfl : y = y' :=
      hβ.eq_of_joined (Scopes.lookup_mem hy) (Scopes.lookup_mem hy') ⟨z, hyz, hyz'⟩
    obtain rfl : s = s' := Option.some.inj (hy.symm.trans hy')
    exact he.same he'
  · have hb : (z == u) = false := beq_false_of_ne hzu
    have hl' : p.lookup z = some t := by simpa [List.lookup_cons, hb] using hl
    exact hag z t hl' g x d' hgz hx

end Found

mutual

/-- **A search that holds is sound**: what it finds stays pending, keeps every walk that
ended, and makes the expected type unfold to the actual one. -/
theorem solve_sound (hv : v.Formed arity) (p : Found) (hp : v.Pending arity p) (e a : Ty) (he : e.WellFormed arity)
    (ha : a.WellFormed arity) (hg : a.stable = true) : ∀ p', v.solve p e a = .holds p' →
      v.Pending arity p' ∧ Keeps (v.look p) (v.look p') ∧ ∃ d, Unfolds (v.look p') d e a := by
  fun_cases v.solve p e a
  case case1 n b hb =>
    intro p' h
    obtain ⟨z, hnz, hz, hbg⟩ := (v.resolve_ok_iff p).1 hb
    have hbf := hv.look hp.formed hz
    rw [solveBound_of_formed p a hbf] at h
    obtain ⟨hp', hk, d, hd⟩ := solveShape_sound hv p hp b a hbf ha hg p' h
    -- the walk from `n` still ends at `z`
    have hzb := ends_of_bound hz hbg
    exact ⟨hp', hk, unfolds_generic_of_reaches (hk.reaches hnz hzb) ((hk z hzb).trans hz) hbg hd⟩
  case case2 n u hu hn =>
    -- the actual type would be the generic `u`
    cases a <;> simp_all [isGenericNamed, stable]
  case case3 n u hu hn =>
    intro p' h
    cases h
    obtain ⟨hnu, -⟩ := v.resolve_error p (fun _ h => absurd h List.not_mem_nil) hu
    obtain ⟨hp', hk⟩ := hp.cons hu ha hg
    obtain ⟨d, hd⟩ := unfolds_self (L := v.look ((u, a) :: p)) ha hg
    exact ⟨hp', hk, unfolds_generic_of_reaches (reaches_of_agree hnu fun w hw => v.look_cons_ne hw)
      (v.look_cons_self p u a) (isGeneric_of_stable hg) hd⟩
  case case4 r => cases he
  case case5 => exact solveShape_sound hv p hp e a he ha hg
termination_by (sizeOf a, 1)
decreasing_by all_goals exact Prod.Lex.right _ (by decide)

theorem solveShape_sound (hv : v.Formed arity) (p : Found) (hp : v.Pending arity p) (e a : Ty) (he : e.WellFormed arity)
    (ha : a.WellFormed arity) (hg : a.stable = true) : ∀ p', v.solveShape p e a = .holds p' →
      v.Pending arity p' ∧ Keeps (v.look p) (v.look p') ∧ ∃ d, Unfolds (v.look p') d e a := by
  fun_cases v.solveShape p e a
  case case2 x y hxy =>
    intro p' h
    cases h
    exact ⟨hp, .refl, 1, by simpa [Unfolds] using (beq_iff_eq.1 hxy).symm⟩
  case case4 he' es ha' as hc =>
    intro p' h
    cases he with
    | app hh hes =>
    cases ha with
    | app _ has =>
    simp only [Bool.and_eq_true, beq_iff_eq] at hc
    simp only [stable, Bool.and_eq_true, stableList_iff] at hg
    obtain ⟨hp', hk, d, hd⟩ := solveArgs_sound hv p hp es as hes has hg.2 hc.2 p' h
    have hhead : Unfolds (v.look p') 1 he' ha' :=
      hh.unfolds_of_same ((hh.sameDecl_eq_same ha').symm.trans hc.1)
    exact ⟨hp', hk, max 1 d + 1, _, _, rfl, hhead.mono (by omega),
      hd.imp fun _ _ h => h.mono (by omega)⟩
  case case6 he' es r hs =>
    -- an enum applied to arguments has generics, the bare enum none
    cases he with
    | app hh _ =>
    cases ha with
    | enum h0 =>
    cases he' with
    | enum r₀ =>
      have hid : r₀.id = r.id := by simpa [Ty.same] using hs
      obtain ⟨hpos, har⟩ := hh
      rw [hid, h0] at har
      omega
    | _ => simp [Ty.same] at hs
  case case8 r ha' as hs =>
    cases he with
    | enum h0 =>
    cases ha with
    | app hh _ =>
    cases ha' with
    | enum r₀ =>
      have hid : r₀.id = r.id := by simpa [Ty.same] using hs
      obtain ⟨hpos, har⟩ := hh
      rw [hid, h0] at har
      omega
    | _ => simp [Ty.same] at hs
  case case10 r r' hid =>
    intro p' h
    cases h
    exact ⟨hp, .refl, 1, r', rfl, (beq_iff_eq.1 hid).symm⟩
  case case12 | case14 | case15 => cases he
  all_goals intro p' h; cases h
termination_by (sizeOf a, 0)
decreasing_by
  all_goals
    apply Prod.Lex.left
    subst_vars
    simp only [Ty.app.sizeOf_spec]
    omega

theorem solveArgs_sound (hv : v.Formed arity) (p : Found) (hp : v.Pending arity p) (es as : List Ty)
    (hes : ∀ e ∈ es, e.WellFormed arity) (has : ∀ a ∈ as, a.WellFormed arity)
    (hg : ∀ a ∈ as, a.stable = true) (hlen : es.length = as.length) :
    ∀ p', v.solveArgs p true es as = .holds p' → v.Pending arity p' ∧
      Keeps (v.look p) (v.look p') ∧ ∃ d, List.Forall₂ (Unfolds (v.look p') d) es as := by
  fun_cases v.solveArgs p true es as
  case case1 e es a as hgen =>
    simp [isGeneric_of_stable (hg a List.mem_cons_self)] at hgen
  case case2 e es a as hgen p₁ hs =>
    intro p' h
    obtain ⟨hp₁, hk₁, d₁, hd₁⟩ := solve_sound hv p hp e a (hes e List.mem_cons_self)
      (has a List.mem_cons_self) (hg a List.mem_cons_self) p₁ hs
    obtain ⟨hp', hk', d₂, hd₂⟩ := solveArgs_sound hv p₁ hp₁ es as
      (fun e h => hes e (List.mem_cons_of_mem _ h)) (fun a h => has a (List.mem_cons_of_mem _ h))
      (fun a h => hg a (List.mem_cons_of_mem _ h)) (by simpa using hlen) p' h
    exact ⟨hp', hk₁.trans hk', max d₁ d₂, .cons ((hd₁.transfer hk').mono (by omega))
      (hd₂.imp fun _ _ h => h.mono (by omega))⟩
  case case3 e es a as hgen hs =>
    intro p' h
    exact absurd h (hs p')
  case case4 hne =>
    intro p' h
    cases h
    -- the lists have one length, so both are empty
    cases es with
    | nil => cases as with
      | nil => exact ⟨hp, .refl, 0, .nil⟩
      | cons _ _ => simp at hlen
    | cons e es => cases as with
      | nil => simp at hlen
      | cons a as => exact (hne e es a as rfl rfl).elim
termination_by (sizeOf as, 0)
decreasing_by
  all_goals
    apply Prod.Lex.left
    subst_vars
    simp only [List.cons.sizeOf_spec]
    omega

end

/-- **A search is complete**: if the expected type unfolds to the actual one under an
assignment, the search holds, and what it finds stays pending and agrees with the assignment.
The induction is on the depth of the unfolding. -/
theorem solve_complete (hv : v.Formed arity) {β : Found} (hβ : v.Assigns arity β) (d : Nat) :
    ∀ (p : Found), v.Pending arity p → v.Agrees β p → ∀ e a, e.WellFormed arity →
      a.WellFormed arity → a.stable = true → Unfolds (v.look β) d e a →
      ∃ p', v.solve p e a = .holds p' ∧ v.Pending arity p' ∧ v.Agrees β p' := by
  induction d using Nat.strong_induction_on with
  | _ d ih =>
  intro p hp hag e a he ha hg hd
  cases d with
  | zero => exact hd.elim
  | succ k =>
  cases he with
  | basic x =>
    obtain rfl : a = .basic x := hd
    refine ⟨p, ?_, hp, hag⟩
    rw [solve_of_formed p _ (show (Ty.basic x).WellFormed arity from .basic x) rfl,
      solveShape.eq_def]
    simp
  | enum h0 =>
    obtain ⟨r', rfl, hid⟩ := hd
    refine ⟨p, ?_, hp, hag⟩
    rw [solve_of_formed p _ (.enum h0) rfl, solveShape.eq_def]
    simp [hid]
  | @generic n =>
    cases hr : v.resolve p n [] rfl with
    | ok b =>
      rw [solve_generic_ok a hr]
      obtain ⟨z, hnz, hz, hbg⟩ := (v.resolve_ok_iff p).1 hr
      have hbf := hv.look hp.formed hz
      rw [solveBound_of_formed p a hbf]
      have hnz' : Reaches (v.look []) n z := reaches_nil hp.isGeneric hnz
      cases hl : p.lookup z with
      | some t =>
        -- `z` was found: what was found for it is what `n` unfolds to
        obtain rfl : t = b := Option.some.inj ((v.look_of_lookup hl).symm.trans hz)
        obtain ⟨c, hc, rfl⟩ := List.mem_map.1 (lookup_snd_mem hl)
        exact ⟨p, solveShape_of_same p hbf (hp.stable c hc) (hag z c.2 hl n a (k + 1) hnz' hd),
          hp, hag⟩
      | none =>
        -- `z` is bound in the scopes, and the assignment leaves the walk to it as it is
        have hz' : v.look [] z = some b := (v.look_of_lookup_none hl).symm.trans hz
        have hzb := ends_of_bound hz' hbg
        obtain ⟨d', hd', hu⟩ :=
          hd.of_reaches (hβ.keeps.reaches hnz' hzb) ((hβ.keeps z hzb).trans hz')
        obtain ⟨p', hs, hp', hag'⟩ := ih d' hd' p hp hag b a hbf ha hg hu
        rw [solve_of_formed p a hbf hbg] at hs
        exact ⟨p', hs, hp', hag'⟩
    | error u =>
      rw [solve_generic_error a hr, if_neg (by cases a <;> simp_all [isGenericNamed, stable])]
      exact ⟨_, rfl, (hp.cons hr ha hg).1, hag.cons hβ hp hr hd⟩
  | @app h es hh hes =>
    obtain ⟨h', as, rfl, hhu, has⟩ := hd
    cases ha with
    | app _ has' =>
    simp only [stable, Bool.and_eq_true, stableList_iff] at hg
    rw [solve_of_formed p _ (.app hh hes) rfl, solveShape.eq_def]
    simp only [hh.sameDecl_eq_same h', hh.same_of_unfolds hhu, has.length_eq, beq_self_eq_true,
      Bool.and_self, if_true]
    -- the arguments match one after the other, each by the induction
    have hrun : ∀ (q : Found), v.Pending arity q → v.Agrees β q → ∀ {xs ys : List Ty},
        (∀ x ∈ xs, x ∈ es) → (∀ y ∈ ys, y ∈ as) → List.Forall₂ (Unfolds (v.look β) k) xs ys →
        ∃ p', v.solveArgs q true xs ys = .holds p' ∧ v.Pending arity p' ∧ v.Agrees β p' := by
      intro q hq hagq xs ys hxs hys h
      induction h generalizing q with
      | nil => exact ⟨q, solveArgs_nil q true, hq, hagq⟩
      | @cons x y xs ys hxy _ ih' =>
        have hy := hys y List.mem_cons_self
        obtain ⟨q₁, hs₁, hq₁, hag₁⟩ := ih k (by omega) q hq hagq x y
          (hes x (hxs x List.mem_cons_self)) (has' y hy) (hg.2 y hy) hxy
        obtain ⟨q', hs', hq', hag'⟩ := ih' q₁ hq₁ hag₁
          (fun z hz => hxs z (List.mem_cons_of_mem _ hz)) (fun z hz => hys z (List.mem_cons_of_mem _ hz))
        exact ⟨q', (solveArgs_cons_holds xs ys (isGeneric_of_stable (hg.2 y hy)) hs₁).trans hs',
          hq', hag'⟩
    exact hrun p hp hag (fun _ h => h) (fun _ h => h) has

theorem unify_eq_of_holds {e a : Ty} {p : Found} (h : v.solve [] e a = .holds p) :
    v.unify e a = (.holds p, v.scopes.commit v.frame p) := by
  obtain ⟨scopes, frame, decls⟩ := v
  unfold unify
  rw [h]

theorem unify_fst_eq (e a : Ty) : (v.unify e a).1 = v.solve [] e a := by
  cases h : v.solve [] e a with
  | holds p => rw [unify_eq_of_holds h]
  | fails | endless =>
    unfold unify
    rw [h]

/-- With an assignment written into the frame, a well-formed type simplifies to a well-formed
actual type with no generic exactly when it unfolds to it under the assignment. -/
theorem simplify_commit_iff (hv : v.Formed arity) {β : Found}
    (hβ : ∀ b ∈ β, b.2.WellFormed arity) {e a : Ty} (he : e.WellFormed arity)
    (ha : a.WellFormed arity) (hg : a.stable = true) :
    ((v.scopes.commit v.frame β).simplify v.frame e).same a = true ↔
      ∃ d, Unfolds (v.look β) d e a := by
  have hget : (v.scopes.commit v.frame β).get v.frame = v.look β :=
    funext (v.get_commit hv.frame_lt β)
  rw [Scopes.simplify_same_iff _ _ (fun x b hb => hv.look hβ (hget ▸ hb)) he ha hg, hget]

/-- **Unification matches by assignment**: for well-formed types, an actual type with no
generic and scopes whose bindings are well-formed, unifying holds exactly when some assignment
to the generics the scopes leave open makes the expected type simplify to the actual one, and
once it holds the expected type simplifies to the actual one in the scopes it leaves. -/
theorem unify_iff_assigns (hv : v.Formed arity) {e a : Ty} (he : e.WellFormed arity)
    (ha : a.WellFormed arity) (hg : a.stable = true) :
    ((∃ p, (v.unify e a).1 = .holds p) ↔
      ∃ β, v.Assigns arity β ∧ ((v.scopes.commit v.frame β).simplify v.frame e).same a = true) ∧
    ∀ p, (v.unify e a).1 = .holds p → ((v.unify e a).2.simplify v.frame e).same a = true := by
  rw [unify_fst_eq]
  refine ⟨⟨fun ⟨p, h⟩ => ?_, fun ⟨β, hβ, hs⟩ => ?_⟩, fun p h => ?_⟩
  · obtain ⟨hp, -, hd⟩ := solve_sound hv [] pending_nil e a he ha hg p h
    exact ⟨p, hp.assigns, (simplify_commit_iff hv hp.formed he ha hg).2 hd⟩
  · obtain ⟨d, hd⟩ := (simplify_commit_iff hv hβ.formed he ha hg).1 hs
    obtain ⟨p, h, -⟩ := solve_complete hv hβ d [] pending_nil (agrees_nil β) e a he ha hg hd
    exact ⟨p, h⟩
  · obtain ⟨hp, -, hd⟩ := solve_sound hv [] pending_nil e a he ha hg p h
    rw [unify_eq_of_holds h]
    exact (simplify_commit_iff hv hp.formed he ha hg).2 hd

/-- A pair of one generic twice, bound to itself, against a pair of an integer and a float, in
scopes that bind only that generic. -/
theorem unify_pair_of_generic :
    View.Formed (fun _ => 0) ⟨Scopes.ofRoot [("T", .generic "T")], 0, Decls.initial⟩ ∧
    (Ty.app (.data ⟨0, "Pair", 2⟩) [.generic "T", .generic "T"]).WellFormed (fun _ => 0) ∧
    (Ty.app (.data ⟨0, "Pair", 2⟩) [.basic "Int", .basic "Float"]).WellFormed (fun _ => 0) ∧
    (Ty.app (.data ⟨0, "Pair", 2⟩) [.basic "Int", .basic "Float"]).stable = true ∧
    (((∃ p, (View.unify ⟨Scopes.ofRoot [("T", .generic "T")], 0, Decls.initial⟩
        (.app (.data ⟨0, "Pair", 2⟩) [.generic "T", .generic "T"])
        (.app (.data ⟨0, "Pair", 2⟩) [.basic "Int", .basic "Float"])).1 = .holds p) ↔
      ∃ β, View.Assigns (fun _ => 0) ⟨Scopes.ofRoot [("T", .generic "T")], 0, Decls.initial⟩ β ∧
        (((Scopes.ofRoot [("T", .generic "T")]).commit 0 β).simplify 0
          (.app (.data ⟨0, "Pair", 2⟩) [.generic "T", .generic "T"])).same
            (.app (.data ⟨0, "Pair", 2⟩) [.basic "Int", .basic "Float"]) = true) ∧
    ∀ p, (View.unify ⟨Scopes.ofRoot [("T", .generic "T")], 0, Decls.initial⟩
        (.app (.data ⟨0, "Pair", 2⟩) [.generic "T", .generic "T"])
        (.app (.data ⟨0, "Pair", 2⟩) [.basic "Int", .basic "Float"])).1 = .holds p →
      ((View.unify ⟨Scopes.ofRoot [("T", .generic "T")], 0, Decls.initial⟩
        (.app (.data ⟨0, "Pair", 2⟩) [.generic "T", .generic "T"])
        (.app (.data ⟨0, "Pair", 2⟩) [.basic "Int", .basic "Float"])).2.simplify 0
          (.app (.data ⟨0, "Pair", 2⟩) [.generic "T", .generic "T"])).same
            (.app (.data ⟨0, "Pair", 2⟩) [.basic "Int", .basic "Float"]) = true) := by
  have hv : View.Formed (fun _ => 0) ⟨Scopes.ofRoot [("T", .generic "T")], 0, Decls.initial⟩ := by
    refine ⟨by decide, fun x t h => ?_⟩
    rw [Scopes.get] at h
    by_cases hx : x = "T"
    · subst hx
      simp [Scopes.ofRoot] at h
      subst h
      exact .generic "T"
    · simp [Scopes.ofRoot, List.lookup_cons, beq_false_of_ne hx] at h
  have he : (Ty.app (.data ⟨0, "Pair", 2⟩) [.generic "T", .generic "T"]).WellFormed (fun _ => 0) :=
    .app rfl fun x hx => by
      obtain rfl : x = .generic "T" := by simpa using hx
      exact .generic "T"
  have ha : (Ty.app (.data ⟨0, "Pair", 2⟩) [.basic "Int", .basic "Float"]).WellFormed
      (fun _ => 0) :=
    .app rfl fun x hx => by
      rcases List.mem_pair.mp hx with rfl | rfl
      · exact .basic "Int"
      · exact .basic "Float"
  exact ⟨hv, he, ha, rfl, unify_iff_assigns hv he ha rfl⟩

/-- **An enum applied to no arguments is matched against the bare enum**: the search holds
and binds nothing, while no scopes simplify the application to the enum. -/
theorem unify_empty_application :
    (View.unify ⟨Scopes.ofRoot [], 0, Decls.initial⟩ (.app (.enum ⟨1, "E", [], ["A"]⟩) [])
        (.enum ⟨1, "E", [], ["A"]⟩)).1 = .holds [] ∧
      ∀ (s : Scopes) (i : Nat),
        (s.simplify i (.app (.enum ⟨1, "E", [], ["A"]⟩) [])).same (.enum ⟨1, "E", [], ["A"]⟩) =
          false := by
  refine ⟨?_, fun s i => ?_⟩
  · rw [unify_fst_eq, solve.eq_def, solveShape.eq_def]
    simp [Ty.same]
  · simp [Scopes.simplify, stable, stableList, Ty.same]

end View

end Verve
