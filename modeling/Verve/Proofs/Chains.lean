import Mathlib.Logic.Relation
import Verve.Proofs.Chase

/-!
# Chains of generic bindings

The bindings a search reads (`View.look p`, a lookup `L : String → Option Ty`) link a name to
another when they bind the first to the generic of the second. Each name links to at most one
name, so following links from a name is a walk that either reaches a name bound to a type
that is no generic, or stops at a name with no binding, or goes round a cycle:

* `Chain.Reaches L x y`: `y` is reached from `x` by following links;
* `Chain.Ends L x`: the walk from `x` reaches a name bound to a type that is no generic;
* `Chain.Joined L x y`: the walks from `x` and `y` meet, so the two names stand for one
  unknown;
* `Chain.Terminal L u`: `u` has no binding or lies on a cycle of links.

`View.resolve` follows that walk: it resolves `x` to `b` exactly when the walk from `x` reaches
a name bound to `b` (`View.resolve_ok_iff`), and fails exactly when the walk ends in no type
(`View.resolve_error_iff`), at a terminal name reached from `x` (`View.resolve_error`).

A search reads the bindings it has found before those of the scopes. Found bindings of types
that are no generics only end walks sooner (`View.ends_found`), and every walk through them
is one of the scopes up to the first found name (`View.reaches_nil`). Once a search holds,
`Scopes.commit` writes its bindings into the frame, and the frame then gives what the search
read (`View.get_commit`).
-/

namespace Verve

theorem Ty.isGeneric_eq_false {t : Ty} (h : ∀ y, t ≠ .generic y) : t.isGeneric = false := by
  cases t <;> simp_all [isGeneric]

namespace Chain

variable (L : String → Option Ty)

/-- `x` is bound to the generic `y`. -/
def Link (x y : String) : Prop := L x = some (.generic y)

/-- `y` is reached from `x` by following links. -/
abbrev Reaches : String → String → Prop := Relation.ReflTransGen (Link L)

/-- The walks from two names meet: the names stand for one unknown. -/
abbrev Joined : String → String → Prop := Relation.Join (Reaches L)

/-- The walk from `x` reaches a name bound to a type that is no generic. -/
def Ends (x : String) : Prop := ∃ z b, Reaches L x z ∧ L z = some b ∧ b.isGeneric = false

/-- Where a walk that ends in no type stops: a name with no binding, or one on a cycle of
links. -/
def Terminal (u : String) : Prop := L u = none ∨ ∃ y, L u = some (.generic y) ∧ Reaches L y u

/-- `L'` binds every name whose walk in `L` ends as `L` does. -/
def Keeps (L' : String → Option Ty) : Prop := ∀ w, Ends L w → L' w = L w

variable {L} {x y z u : String}

theorem link_unique : Relator.RightUnique (Link L) := by
  intro x y z hy hz
  have h : some (Ty.generic y) = some (.generic z) := hy.symm.trans hz
  simpa using h

theorem not_link_of_bound {b : Ty} (hx : L x = some b) (hb : b.isGeneric = false) :
    ∀ y, ¬ Link L x y := by
  intro y hy
  obtain rfl : b = .generic y := Option.some.inj (hx.symm.trans hy)
  simp [Ty.isGeneric] at hb

theorem not_link_of_none (hx : L x = none) : ∀ y, ¬ Link L x y := by
  intro y hy
  simp [Link, hx] at hy

/-- A name that links to nothing reaches itself only. -/
theorem eq_of_reaches_of_stop (hx : ∀ y, ¬ Link L x y) (h : Reaches L x z) : z = x := by
  rcases h.cases_head with rfl | ⟨y, hy, -⟩
  · rfl
  · exact absurd hy (hx y)

/-- From a name on a cycle of links, every name reached leads back to it. -/
theorem reaches_back_of_cycle (hu : Link L u y) (hy : Reaches L y u) (hz : Reaches L u z) :
    Reaches L z u := by
  induction hz with
  | refl => exact .refl
  | tail _ hcd ih =>
    -- the name before the last is `u` itself or links on towards `u`
    rcases ih.cases_head with rfl | ⟨e, he, heu⟩
    · rwa [link_unique hcd hu]
    · rwa [link_unique hcd he]

theorem ends_of_bound {b : Ty} (hx : L x = some b) (hb : b.isGeneric = false) : Ends L x :=
  ⟨x, b, .refl, hx, hb⟩

theorem Ends.of_reaches (h : Reaches L x y) (hy : Ends L y) : Ends L x := by
  obtain ⟨z, b, hyz, hz, hb⟩ := hy
  exact ⟨z, b, h.trans hyz, hz, hb⟩

/-- A walk that reaches a name whose walk ends in no type ends in no type either. -/
theorem not_ends_of_reaches (h : Reaches L x u) (hu : ¬ Ends L u) : ¬ Ends L x := by
  rintro ⟨z, b, hxz, hz, hb⟩
  rcases h.total_of_right_unique link_unique hxz with huz | hzu
  · exact hu ⟨z, b, huz, hz, hb⟩
  · obtain rfl := eq_of_reaches_of_stop (not_link_of_bound hz hb) hzu
    exact hu (ends_of_bound hz hb)

theorem Terminal.not_ends (hu : Terminal L u) : ¬ Ends L u := by
  rintro ⟨z, b, huz, hz, hb⟩
  rcases hu with hn | ⟨y, hy, hyu⟩
  · obtain rfl := eq_of_reaches_of_stop (not_link_of_none hn) huz
    simp [hn] at hz
  · obtain rfl := eq_of_reaches_of_stop (not_link_of_bound hz hb) (reaches_back_of_cycle hy hyu huz)
    exact not_link_of_bound hz hb y hy

/-- A name whose walk meets that of a terminal name reaches it. -/
theorem Terminal.reaches_of_joined (hu : Terminal L u) (h : Joined L x u) : Reaches L x u := by
  obtain ⟨c, hxc, huc⟩ := h
  rcases hu with hn | ⟨y, hy, hyu⟩
  · obtain rfl := eq_of_reaches_of_stop (not_link_of_none hn) huc
    exact hxc
  · exact hxc.trans (reaches_back_of_cycle hy hyu huc)

/-- Two names reached from one name have walks that meet. -/
theorem joined_of_reaches {g z z' : String} (hz : Reaches L g z) (hz' : Reaches L g z') :
    Joined L z z' := by
  rcases hz.total_of_right_unique link_unique hz' with h | h
  · exact ⟨z', h, .refl⟩
  · exact ⟨z, .refl, h⟩

/-- A lookup that keeps the names whose walks end keeps the walks to them. -/
theorem Keeps.reaches {L' : String → Option Ty} (hL : Keeps L L') (h : Reaches L x z)
    (hz : Ends L z) : Reaches L' x z := by
  induction h using Relation.ReflTransGen.head_induction_on with
  | refl => exact .refl
  | head hwc hcz ih =>
    have hw' := hL _ ((hz.of_reaches hcz).of_reaches (.single hwc))
    exact .head (show L' _ = _ by rw [hw']; exact hwc) ih

/-- A lookup that keeps the names whose walks end keeps those walks. -/
theorem Ends.transfer {L' : String → Option Ty} (h : Ends L x) (hL : Keeps L L') : Ends L' x := by
  obtain ⟨z, b, hxz, hz, hb⟩ := h
  have hzb := ends_of_bound hz hb
  exact ⟨z, b, hL.reaches hxz hzb, (hL z hzb).trans hz, hb⟩

theorem Keeps.refl : Keeps L L := fun _ _ => rfl

theorem Keeps.trans {L' L'' : String → Option Ty} (h : Keeps L L') (h' : Keeps L' L'') :
    Keeps L L'' := fun w hw => (h' w (hw.transfer h)).trans (h w hw)

/-- A lookup that agrees with `L` everywhere but at `u` keeps the walks to `u`. -/
theorem reaches_of_agree {L' : String → Option Ty} (h : Reaches L x u)
    (hL : ∀ w, w ≠ u → L' w = L w) : Reaches L' x u := by
  induction h using Relation.ReflTransGen.head_induction_on with
  | refl => exact .refl
  | @head w c hwc _ ih =>
    by_cases hwu : w = u
    · subst hwu
      exact .refl
    · exact .head (show L' w = _ by rw [hL w hwu]; exact hwc) ih

/-- Binding more names to types that are no generics keeps every walk that ends. -/
theorem Ends.of_extra {L' : String → Option Ty} (h : Ends L x)
    (hL : ∀ w, L' w ≠ L w → ∃ b, L' w = some b ∧ b.isGeneric = false) : Ends L' x := by
  obtain ⟨z, b, hxz, hz, hb⟩ := h
  induction hxz using Relation.ReflTransGen.head_induction_on with
  | refl =>
    by_cases hz' : L' z = L z
    · exact ends_of_bound (hz'.trans hz) hb
    · obtain ⟨b', h', hb'⟩ := hL z hz'
      exact ends_of_bound h' hb'
  | @head w c hwc _ ih =>
    by_cases hw : L' w = L w
    · exact ih.of_reaches (.single (show L' w = _ by rw [hw]; exact hwc))
    · obtain ⟨b', h', hb'⟩ := hL w hw
      exact ends_of_bound h' hb'

end Chain

open Chain

namespace View

theorem look_of_lookup (v : View) {p : Found} {x : String} {t : Ty} (h : p.lookup x = some t) :
    v.look p x = some t := by
  simp [look, h]

theorem look_of_lookup_none (v : View) {p : Found} {x : String} (h : p.lookup x = none) :
    v.look p x = v.look [] x := by
  simp [look, h]

theorem look_cons_ne (v : View) {p : Found} {x u : String} {t : Ty} (h : x ≠ u) :
    v.look ((u, t) :: p) x = v.look p x := by
  have hb : (x == u) = false := by simpa using h
  simp [look, List.lookup_cons, hb]

theorem look_cons_self (v : View) (p : Found) (u : String) (t : Ty) :
    v.look ((u, t) :: p) u = some t := by
  simp [look]

section Resolve

variable (v : View) (p : Found)

/-- A name resolves to the type bound to the name its walk reaches. -/
theorem resolve_ok {b : Ty} : ∀ {x : String} {seen : List String} {h : seen.contains x = false},
    v.resolve p x seen h = .ok b →
      ∃ z, Reaches (v.look p) x z ∧ v.look p z = some b ∧ b.isGeneric = false := by
  intro x seen h hr
  induction x, seen, h using View.resolve.induct v p with
  | case1 x seen h y hl hy =>
    rw [resolve_of_generic v p h hl, dif_pos hy] at hr
    cases hr
  | case2 x seen h y hl hy ih =>
    rw [resolve_of_generic v p h hl, dif_neg hy] at hr
    obtain ⟨z, hyz, hz, hb⟩ := ih hr
    exact ⟨z, .head hl hyz, hz, hb⟩
  | case3 x seen h t hng hl =>
    rw [resolve_of_other v p h hl hng] at hr
    cases hr
    exact ⟨x, .refl, hl, Ty.isGeneric_eq_false hng⟩
  | case4 x seen h hl =>
    rw [resolve_of_none v p h hl] at hr
    cases hr

/-- A name fails to resolve at a terminal name that its walk reaches. The names passed lead
to the name being resolved, which is what makes a repeated name a cycle. -/
theorem resolve_error {u : String} : ∀ {x : String} {seen : List String}
    {h : seen.contains x = false}, (∀ s ∈ seen, Reaches (v.look p) s x) →
      v.resolve p x seen h = .error u → Reaches (v.look p) x u ∧ Terminal (v.look p) u := by
  intro x seen h hseen hr
  induction x, seen, h using View.resolve.induct v p with
  | case1 x seen h y hl hy =>
    rw [resolve_of_generic v p h hl, dif_pos hy] at hr
    obtain rfl : x = u := Except.error.inj hr
    refine ⟨.refl, .inr ⟨y, hl, ?_⟩⟩
    rcases (by simpa using hy : y = x ∨ y ∈ seen) with rfl | hs
    · exact .refl
    · exact hseen y hs
  | case2 x seen h y hl hy ih =>
    rw [resolve_of_generic v p h hl, dif_neg hy] at hr
    have hseen' : ∀ s ∈ x :: seen, Reaches (v.look p) s y := by
      intro s hs
      rcases List.mem_cons.1 hs with rfl | hs
      · exact .single hl
      · exact (hseen s hs).tail hl
    obtain ⟨hyu, hu⟩ := ih hseen' hr
    exact ⟨.head hl hyu, hu⟩
  | case3 x seen h t hng hl =>
    rw [resolve_of_other v p h hl hng] at hr
    cases hr
  | case4 x seen h hl =>
    rw [resolve_of_none v p h hl] at hr
    cases hr
    exact ⟨.refl, .inl hl⟩

/-- **Resolving follows the walk**: a name resolves to `b` exactly when its walk reaches a
name bound to `b`, a type that is no generic. -/
theorem resolve_ok_iff {x : String} {b : Ty} :
    v.resolve p x [] rfl = .ok b ↔
      ∃ z, Reaches (v.look p) x z ∧ v.look p z = some b ∧ b.isGeneric = false := by
  refine ⟨v.resolve_ok p, fun ⟨z, hxz, hz, hb⟩ => ?_⟩
  cases hr : v.resolve p x [] rfl with
  | ok b' =>
    obtain ⟨z', hxz', hz', hb'⟩ := v.resolve_ok p hr
    -- the walk from `x` has one end
    have hzz : z' = z := by
      rcases hxz.total_of_right_unique link_unique hxz' with h | h
      · exact eq_of_reaches_of_stop (not_link_of_bound hz hb) h
      · exact (eq_of_reaches_of_stop (not_link_of_bound hz' hb') h).symm
    subst hzz
    rw [hz] at hz'
    cases hz'
    rfl
  | error u =>
    obtain ⟨hxu, hu⟩ := v.resolve_error p (fun _ h => absurd h List.not_mem_nil) hr
    exact absurd ⟨z, b, hxz, hz, hb⟩ (not_ends_of_reaches hxu hu.not_ends)

/-- The names that fail to resolve are those whose walk ends in no type. -/
theorem resolve_error_iff {x : String} :
    (∃ u, v.resolve p x [] rfl = .error u) ↔ ¬ Ends (v.look p) x := by
  constructor
  · rintro ⟨u, hr⟩
    obtain ⟨hxu, hu⟩ := v.resolve_error p (fun _ h => absurd h List.not_mem_nil) hr
    exact not_ends_of_reaches hxu hu.not_ends
  · intro hx
    cases hr : v.resolve p x [] rfl with
    | ok b =>
      obtain ⟨z, hxz, hz, hb⟩ := (v.resolve_ok_iff p).1 hr
      exact absurd ⟨z, b, hxz, hz, hb⟩ hx
    | error u => exact ⟨u, rfl⟩

end Resolve

section Found

/-! Found bindings are of types that are no generics: the actual types of a search that
contains no generic, and their parts. -/

variable {v : View} {p : Found} (hp : ∀ b ∈ p, b.2.isGeneric = false)
include hp

theorem lookup_isGeneric {x : String} {t : Ty} (h : p.lookup x = some t) : t.isGeneric = false := by
  obtain ⟨b, hb, rfl⟩ := List.mem_map.1 (lookup_snd_mem h)
  exact hp b hb

/-- Found bindings only end walks of the scopes sooner. -/
theorem ends_found {x : String} (h : Ends (v.look []) x) : Ends (v.look p) x := by
  refine h.of_extra fun w hw => ?_
  cases hl : p.lookup w with
  | some t => exact ⟨t, v.look_of_lookup hl, lookup_isGeneric hp hl⟩
  | none => exact absurd (v.look_of_lookup_none hl) hw

/-- A walk that follows found bindings is a walk of the scopes: no found name links on. -/
theorem reaches_nil {x z : String} (h : Reaches (v.look p) x z) : Reaches (v.look []) x z := by
  induction h using Relation.ReflTransGen.head_induction_on with
  | refl => exact .refl
  | @head w c hwc _ ih =>
    cases hl : p.lookup w with
    | some t => exact absurd hwc (not_link_of_bound (v.look_of_lookup hl) (lookup_isGeneric hp hl) c)
    | none => exact .head ((v.look_of_lookup_none hl).symm.trans hwc) ih

/-- A walk of the scopes that reaches a found name ends with the found bindings. -/
theorem ends_found_of_reaches {x w : String} (h : Reaches (v.look []) x w)
    (hw : w ∈ p.map (·.1)) : Ends (v.look p) x := by
  induction h using Relation.ReflTransGen.head_induction_on with
  | refl =>
    obtain ⟨b, hb, rfl⟩ := List.mem_map.1 hw
    have hs : (p.lookup b.1).isSome := List.lookup_isSome_iff.2 ⟨b, hb, by simp⟩
    obtain ⟨t, ht⟩ := Option.isSome_iff_exists.1 hs
    exact ends_of_bound (v.look_of_lookup ht) (lookup_isGeneric hp ht)
  | @head x c hxc _ ih =>
    cases hl : p.lookup x with
    | some t => exact ends_of_bound (v.look_of_lookup hl) (lookup_isGeneric hp hl)
    | none => exact ih.of_reaches (.single ((v.look_of_lookup_none hl).trans hxc))

/-- Where a walk of the search ends in no type, it is a walk of the scopes. -/
theorem look_eq_nil_of_not_ends {w : String} (hw : ¬ Ends (v.look p) w) :
    v.look p w = v.look [] w := by
  cases hl : p.lookup w with
  | some t => exact absurd (ends_of_bound (v.look_of_lookup hl) (lookup_isGeneric hp hl)) hw
  | none => exact v.look_of_lookup_none hl

theorem terminal_nil {u : String} (hu : Terminal (v.look p) u) : Terminal (v.look []) u := by
  have hl := look_eq_nil_of_not_ends hp hu.not_ends
  rcases hu with hn | ⟨y, hy, hyu⟩
  · exact .inl (hl ▸ hn)
  · exact .inr ⟨y, hl ▸ hy, reaches_nil hp hyu⟩

end Found

end View

namespace Scopes

/-- Binding a name leaves every other name as it was, seen from every frame. -/
theorem get_set_ne (s : Scopes) (i : Nat) {y x : String} (t : Ty) (hxy : x ≠ y) :
    ∀ j, (s.set i y t).get j x = s.get j x := by
  intro j
  obtain ⟨frames, bound⟩ := s
  refine get_congr (k := j + 1) (fun j' _ => ?_) j (Nat.lt_succ_self j)
  -- only frame `i` changes, by a binding of another name
  simp only [Scopes.set, Array.getElem?_modify]
  split
  · cases frames[j']? with
    | none => rfl
    | some f =>
      have hb : (x == y) = false := by simpa using hxy
      simp [List.lookup_cons, hb]
  · rfl

/-- Binding a name in a frame gives it that binding there and leaves the others. -/
theorem get_set_self (s : Scopes) {i : Nat} (y : String) (t : Ty) (x : String)
    (hi : i < s.frames.size) : (s.set i y t).get i x = if x = y then some t else s.get i x := by
  by_cases hxy : x = y
  · -- the new binding is the newest one of its frame
    subst hxy
    obtain ⟨frames, bound⟩ := s
    rw [if_pos rfl, get]
    simp [Scopes.set, Array.getElem?_modify, Array.getElem?_eq_getElem hi]
  · rw [if_neg hxy]
    exact get_set_ne s i t hxy i

theorem size_set (s : Scopes) (i : Nat) (y : String) (t : Ty) :
    (s.set i y t).frames.size = s.frames.size := by
  simp [Scopes.set]

/-- Binding a list of bindings in turn: the last binding of each name counts. -/
theorem get_foldl_set {i : Nat} (x : String) :
    ∀ (q : Found) (s : Scopes), i < s.frames.size →
      (q.foldl (fun s b => s.set i b.1 b.2) s).get i x = (q.reverse.lookup x).or (s.get i x)
  | [], _, _ => by simp
  | (y, t) :: q, s, hi => by
    rw [List.foldl_cons, get_foldl_set x q _ (by rwa [size_set]), get_set_self _ _ _ _ hi,
      List.reverse_cons, List.lookup_append, Option.or_assoc]
    by_cases hxy : x = y
    · subst hxy
      simp
    · have hb : (x == y) = false := beq_false_of_ne hxy
      simp [List.lookup_cons, hb, hxy]

end Scopes

/-- Keeping the first binding of each name keeps what looking a name up gives. -/
theorem lookup_foldl_latest {α : Type} (x : String) :
    ∀ (q acc : List (String × α)),
      (q.foldl (fun acc b => if acc.any (·.1 == b.1) then acc else b :: acc) acc).lookup x =
        (acc.lookup x).or (q.lookup x)
  | [], acc => by simp
  | (y, t) :: q, acc => by
    rw [List.foldl_cons]
    by_cases hb : acc.any (·.1 == y) = true
    · rw [if_pos hb, lookup_foldl_latest x q acc]
      by_cases hxy : x = y
      · -- `acc` already binds `x`
        subst hxy
        obtain ⟨c, hc, hcx⟩ := List.any_eq_true.1 hb
        have hs : (acc.lookup x).isSome :=
          List.lookup_isSome_iff.2 ⟨c, hc, by simp only [beq_iff_eq] at hcx ⊢; exact hcx.symm⟩
        obtain ⟨t', ht⟩ := Option.isSome_iff_exists.1 hs
        simp [ht]
      · have hb' : (x == y) = false := by simpa using hxy
        simp [List.lookup_cons, hb']
    · rw [if_neg hb, lookup_foldl_latest x q ((y, t) :: acc)]
      by_cases hxy : x = y
      · subst hxy
        have hn : acc.lookup x = none := by
          rw [List.lookup_eq_none_iff]
          rintro ⟨a, b⟩ hab
          have hxa : x ≠ a := by
            rintro rfl
            exact (by simpa using hb : ∀ b, (x, b) ∉ acc) b hab
          simpa using hxa
        simp [hn]
      · have hb' : (x == y) = false := by simpa using hxy
        simp [List.lookup_cons, hb']

theorem lookup_latestBindings {α : Type} (q : List (String × α)) (x : String) :
    (latestBindings q).reverse.lookup x = q.lookup x := by
  rw [latestBindings, List.reverse_reverse, lookup_foldl_latest]
  rfl

/-- **The frame keeps what the search read**: after the bindings a search found are written
into its frame, that frame gives every name the binding the search read for it. -/
theorem View.get_commit (v : View) (hv : v.frame < v.scopes.frames.size) (p : Found)
    (x : String) : (v.scopes.commit v.frame p).get v.frame x = v.look p x := by
  rw [Scopes.commit, Scopes.get_foldl_set x _ _ hv, lookup_latestBindings]
  unfold look
  cases p.lookup x <;> rfl

end Verve
