import Mathlib.Data.List.Chain
import Mathlib.Data.List.Nodup
import Verve.Proofs.Chains

/-!
# Resolving a generic walks its chain

A search reads the bindings it has found, then those of the scopes (`View.look p`), and each
name is bound to at most one generic. From a name `n` the chain is `n`, the generic `n` is
bound to, the generic that one is bound to, and so on, up to the first name whose binding is
missing, is no generic, or is a generic already on the chain. `Chain.Walk L ws u` says that
`ws` is such a chain, ending at `u`; from a given name there is exactly one
(`Chain.Walk.unique`).

`View.resolve_follows_walk`: for every name, found bindings and scopes, resolving ends, and
its answer is read off the last name of the chain (`Chain.Answers`): the type that name is
bound to when it is no generic, else the name itself, which is then unbound or bound to a
generic of the chain. The answer is the last name, not the first, and it is the name a search
binds when it meets an unknown.
-/

namespace Verve

namespace Chain

variable (L : String → Option Ty)

/-- `ws` is a chain of bindings ending at `u`: each name of `ws` is bound to the generic of
the next, no name comes twice, and the last name `u` is bound to no generic off the chain. -/
structure Walk (ws : List String) (u : String) : Prop where
  last : ws.getLast? = some u
  links : ws.IsChain (Link L)
  nodup : ws.Nodup
  stops : ∀ y, Link L u y → y ∈ ws

/-- What a resolution `r` answers at the end `u` of the chain `ws`: the type `u` is bound to
when that is no generic, and otherwise the name `u`, which has no binding or is bound to a
generic of the chain. -/
structure Answers (ws : List String) (u : String) (r : Except String Ty) : Prop where
  ok_iff : ∀ t, r = .ok t ↔ L u = some t ∧ t.isGeneric = false
  error_iff : ∀ w, r = .error w ↔ w = u ∧ (L u = none ∨ ∃ y ∈ ws, L u = some (.generic y))

variable {L} {ws : List String} {u : String}

theorem answers_of_none (hu : L u = none) : Answers L ws u (.error u) where
  ok_iff t := by simp [hu]
  error_iff w := by simp [hu, eq_comm]

theorem answers_of_other {t : Ty} (hu : L u = some t) (ht : ∀ y, t ≠ .generic y) :
    Answers L ws u (.ok t) where
  ok_iff t' := by
    have hg : t.isGeneric = false := Ty.isGeneric_eq_false ht
    constructor
    · rintro ⟨⟩
      exact ⟨hu, hg⟩
    · rintro ⟨h, -⟩
      rw [Option.some.inj (hu.symm.trans h)]
  error_iff w := by
    constructor
    · rintro ⟨⟩
    · rintro ⟨-, hn | ⟨y, -, hy⟩⟩
      · simp [hu] at hn
      · exact absurd (Option.some.inj (hu.symm.trans hy)) (ht y)

theorem answers_of_generic {y : String} (hu : L u = some (.generic y)) (hy : y ∈ ws) :
    Answers L ws u (.error u) where
  ok_iff t := by
    constructor
    · rintro ⟨⟩
    · rintro ⟨h, hg⟩
      rw [← Option.some.inj (hu.symm.trans h)] at hg
      simp [Ty.isGeneric] at hg
  error_iff w := by
    constructor
    · rintro ⟨⟩
      exact ⟨rfl, .inr ⟨y, hy, hu⟩⟩
    · rintro ⟨rfl, -⟩
      rfl

/-- Two chains from one name are one chain. The second name of each is the generic the first
is bound to, and a chain stops only where its last name is bound back onto it, so neither can
stop while the other goes on. `pre` holds the names passed before `n`. -/
theorem walk_tail_unique (pre : List String) :
    ∀ {n : String} {a b : List String},
      (n :: a).IsChain (Link L) → (n :: b).IsChain (Link L) →
      (pre ++ n :: a).Nodup → (pre ++ n :: b).Nodup →
      (∀ u ∈ (n :: a).getLast?, ∀ y, Link L u y → y ∈ pre ++ n :: a) →
      (∀ u ∈ (n :: b).getLast?, ∀ y, Link L u y → y ∈ pre ++ n :: b) → a = b
  | n, [], [], _, _, _, _, _, _ => rfl
  | n, [], z :: b, _, hb, _, hnb, ha, _ => by
    -- `n` is bound to `z`, so the first chain, which stops at `n`, holds `z`: twice in the other
    have hz : z ∈ pre ++ [n] := ha n (by simp) z (List.isChain_cons_cons.1 hb).1
    simp only [List.nodup_append, List.nodup_cons, List.mem_cons] at hnb
    simp only [List.mem_append, List.mem_singleton] at hz
    grind
  | n, y :: a, [], ha, _, hna, _, _, hb => by
    have hy : y ∈ pre ++ [n] := hb n (by simp) y (List.isChain_cons_cons.1 ha).1
    simp only [List.nodup_append, List.nodup_cons, List.mem_cons] at hna
    simp only [List.mem_append, List.mem_singleton] at hy
    grind
  | n, y :: a, z :: b, ha, hb, hna, hnb, hsa, hsb => by
    obtain ⟨hy, ha'⟩ := List.isChain_cons_cons.1 ha
    obtain ⟨hz, hb'⟩ := List.isChain_cons_cons.1 hb
    obtain rfl := link_unique hz hy
    have hpre (c : List String) : pre ++ n :: z :: c = (pre ++ [n]) ++ z :: c := by simp
    rw [hpre] at hna hnb hsa hsb
    rw [walk_tail_unique (pre ++ [n]) ha' hb' hna hnb (by simpa using hsa)
      (by simpa using hsb)]

/-- From a name there is one chain. -/
theorem Walk.unique {n : String} {a b : List String} {u u' : String} (ha : Walk L (n :: a) u)
    (hb : Walk L (n :: b) u') : a = b ∧ u = u' := by
  have hab : a = b := walk_tail_unique [] ha.links hb.links ha.nodup hb.nodup
    (fun w hw y hy => by rw [ha.last, Option.mem_some_iff] at hw; subst hw; simpa using ha.stops y hy)
    (fun w hw y hy => by rw [hb.last, Option.mem_some_iff] at hw; subst hw; simpa using hb.stops y hy)
  subst hab
  exact ⟨rfl, Option.some.inj (ha.last.symm.trans hb.last)⟩

end Chain

namespace View

open Chain

variable (v : View) (p : Found)

/-- Resolving from `x`, having passed the names `seen` (newest first), runs along the chain
that `seen` started: the chain so far is `seen` reversed and then `x`, and resolving ends at
the end of its continuation. -/
theorem resolve_walk_from : ∀ {x : String} {seen : List String} {h : seen.contains x = false},
    (seen.reverse ++ [x]).IsChain (Link (v.look p)) → (seen.reverse ++ [x]).Nodup →
      ∃ tail u, Walk (v.look p) (seen.reverse ++ x :: tail) u ∧
        Answers (v.look p) (seen.reverse ++ x :: tail) u (v.resolve p x seen h) := by
  intro x seen h hc hn
  induction x, seen, h using View.resolve.induct v p with
  | case1 x seen h y hl hy =>
    -- `x` is bound to a generic already passed: the chain stops at `x`
    rw [resolve_of_generic v p h hl, dif_pos hy]
    have hmem : y ∈ seen.reverse ++ [x] := by
      rcases (by simpa using hy : y = x ∨ y ∈ seen) with rfl | hs <;> simp [*]
    refine ⟨[], x, ⟨by simp, hc, hn, fun y' hy' => ?_⟩, answers_of_generic hl hmem⟩
    rwa [link_unique hy' hl]
  | case2 x seen h y hl hy ih =>
    rw [resolve_of_generic v p h hl, dif_neg hy]
    have hpath : (x :: seen).reverse ++ [y] = (seen.reverse ++ [x]) ++ [y] := by simp
    have hy' : y ∉ seen.reverse ++ [x] := by simpa [or_comm] using hy
    obtain ⟨tail, u, hw, ha⟩ := ih
      (by rw [hpath]; exact hc.append (.singleton y) (by simpa [Link] using hl))
      (by rw [hpath]; exact List.nodup_append.2 ⟨hn, List.nodup_singleton y, by grind⟩)
    have hws : (x :: seen).reverse ++ y :: tail = seen.reverse ++ x :: y :: tail := by simp
    rw [hws] at hw ha
    exact ⟨y :: tail, u, hw, ha⟩
  | case3 x seen h t hng hl =>
    rw [resolve_of_other v p h hl hng]
    refine ⟨[], x, ⟨by simp, hc, hn, fun y hy => ?_⟩, answers_of_other hl hng⟩
    exact absurd hy (not_link_of_bound hl (Ty.isGeneric_eq_false hng) y)
  | case4 x seen h hl =>
    rw [resolve_of_none v p h hl]
    refine ⟨[], x, ⟨by simp, hc, hn, fun y hy => ?_⟩, answers_of_none hl⟩
    exact absurd hy (not_link_of_none hl y)

/-- **Resolving follows the chain to its end.** For every name `n`, found bindings and scopes,
resolving `n` ends. It walks the chain from `n`, each name followed by the generic that the
found bindings, or else the scopes, bind it to, and stops at the first name whose binding is
missing, is no generic, or is a generic already passed. It answers the type that last name is
bound to when that is no generic, and otherwise the last name itself. The chain is the only
one from `n`. -/
theorem resolve_follows_walk (n : String) :
    ∃ ws u, ws.head? = some n ∧ Walk (v.look p) ws u ∧
      Answers (v.look p) ws u (v.resolve p n [] rfl) ∧
      ∀ ws' u', ws'.head? = some n → Walk (v.look p) ws' u' → ws' = ws ∧ u' = u := by
  obtain ⟨tail, u, hw, ha⟩ :=
    @resolve_walk_from v p n [] rfl (List.isChain_singleton n) (List.nodup_singleton n)
  refine ⟨n :: tail, u, rfl, hw, ha, fun ws' u' hhead hw' => ?_⟩
  obtain ⟨tail', rfl⟩ : ∃ tail', ws' = n :: tail' := by
    cases ws' with
    | nil => cases hhead
    | cons m tail' => exact ⟨tail', by rw [Option.some.inj hhead]⟩
  obtain ⟨rfl, rfl⟩ := hw'.unique hw
  exact ⟨rfl, rfl⟩

end View

end Verve
