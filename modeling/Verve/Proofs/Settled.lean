import Verve.Proofs.Relabel

/-!
# Settled names

A name is settled in a frame (`Scopes.Settled`) when it simplifies there to a stable type: no
generic and no interface stands in it outside a function type. Every ground type is stable.

A simplification that comes out stable never stopped at a name being followed: each stop
leaves a generic or an interface in the result. So it does not depend on which names were
being followed (`Scopes.simplifyWith_of_sub`), every name it follows is itself settled, and
it reads no other binding: scopes that agree on the settled names simplify it alike
(`Scopes.simplifyWith_agree`). Writing bindings of names that are not settled therefore
keeps every settled name as it was.
-/

namespace Verve

namespace Scopes

variable {s : Scopes} {i : Nat}

/-- `x` simplifies in frame `i` to a stable type. -/
def Settled (s : Scopes) (i : Nat) (x : String) : Prop := (s.simplify i (.generic x)).stable = true

/-- **A stable simplification does not depend on the names being followed**: following fewer
of them gives the same type. -/
theorem simplifyWith_of_sub {r : List String} {t : Ty} (h : (s.simplifyWith i r t).stable = true) :
    ∀ {r' : List String}, (∀ x ∈ r', x ∈ r) →
      s.simplifyWith i r' t = s.simplifyWith i r t := by
  -- the induction follows `simplifyWith` at the names `r`; each case that stops at a name
  -- leaves a generic or an interface, which is not stable
  fun_induction s.simplifyWith i r t with
  | case1 | case2 | case5 | case7 | case8 | case11 => simp [Ty.stable] at h
  | case3 r n hn b hb hng hst =>
    intro r' hsub
    have hn' : r'.contains n = false := by simpa using fun h' => hn (by simpa using hsub n h')
    rw [simplifyWith_generic_of_get s i hn' hb, if_neg hng, if_pos hst]
  | case4 r n hn b hb hng hst ih =>
    intro r' hsub
    have hn' : r'.contains n = false := by simpa using fun h' => hn (by simpa using hsub n h')
    rw [simplifyWith_generic_of_get s i hn' hb, if_neg hng, if_neg hst]
    exact ih h fun x hx => by
      rcases List.mem_cons.1 hx with rfl | hx
      · exact List.mem_cons_self
      · exact List.mem_cons_of_mem _ (hsub x hx)
  | case6 r f args ih ihargs =>
    intro r' hsub
    simp only [List.map_subtype, List.unattach_attach] at h ⊢
    simp only [Ty.stable, Bool.and_eq_true, Ty.stableList_iff, List.mem_map] at h
    rw [simplifyWith_app, ih h.1 hsub]
    congr 1
    exact List.map_congr_left fun a ha => ihargs a ha (h.2 _ ⟨a, ha, rfl⟩) hsub
  | case9 r ref hn b hb hkept hst =>
    intro r' hsub
    have hn' : r'.contains ref.generic = false := by
      simpa using fun h' => hn (by simpa using hsub _ h')
    rw [simplifyWith_iface_of_get s i hn' hb, if_neg hkept, if_pos hst]
  | case10 r ref hn b hb hkept hst ih =>
    intro r' hsub
    have hn' : r'.contains ref.generic = false := by
      simpa using fun h' => hn (by simpa using hsub _ h')
    rw [simplifyWith_iface_of_get s i hn' hb, if_neg hkept, if_neg hst]
    exact ih h fun x hx => by
      rcases List.mem_cons.1 hx with rfl | hx
      · exact List.mem_cons_self
      · exact List.mem_cons_of_mem _ (hsub x hx)
  | case12 r t hg ha hi => intro r' _; exact simplifyWith_other s i hg ha hi

/-- A name that is not settled leaves an unstable type, whatever names are being followed. -/
theorem stable_eq_false_of_not_settled {x : String} (hx : ¬ s.Settled i x) (r : List String) :
    (s.simplifyWith i r (.generic x)).stable = false := by
  by_contra hr
  have hr' : (s.simplifyWith i r (.generic x)).stable = true := by simpa using hr
  apply hx
  rw [Settled, simplify_eq_simplifyWith, simplifyWith_of_sub hr' (by simp)]
  exact hr'

/-- A name whose binding, followed from it, simplifies to a stable type is settled. -/
theorem settled_of_follow {n : String} {b : Ty} {r : List String} (hb : s.get i n = some b)
    (hng : b.isGenericNamed n = false) (h : (s.simplifyWith i (n :: r) b).stable = true) :
    s.Settled i n := by
  rw [Settled, simplify_eq_simplifyWith, simplifyWith_generic_of_get s i rfl hb,
    if_neg (by simp [hng])]
  split
  · assumption
  · rwa [simplifyWith_of_sub h (by simp)]

/-- **A stable simplification reads only settled names**: in scopes that bind every name
settled in `s` as `s` does, it is the same. -/
theorem simplifyWith_agree {s' : Scopes} {r : List String} {t : Ty}
    (h : (s.simplifyWith i r t).stable = true)
    (hs : ∀ y, s.Settled i y → s'.get i y = s.get i y) :
    s'.simplifyWith i r t = s.simplifyWith i r t := by
  fun_induction s.simplifyWith i r t with
  | case1 | case2 | case5 | case7 | case8 | case11 => simp [Ty.stable] at h
  | case3 r n hn b hb hng hst =>
    have hng' : b.isGenericNamed n = false := by simpa using hng
    have hb' := (hs n (settled_of_follow (r := r) hb hng' (by
      rwa [simplifyWith_of_stable s i _ b hst]))).trans hb
    rw [simplifyWith_generic_of_get s' i (by simpa using hn) hb', if_neg hng, if_pos hst]
  | case4 r n hn b hb hng hst ih =>
    have hb' := (hs n (settled_of_follow hb (by simpa using hng) h)).trans hb
    rw [simplifyWith_generic_of_get s' i (by simpa using hn) hb', if_neg hng, if_neg hst]
    exact ih h
  | case6 r f args ih ihargs =>
    simp only [List.map_subtype, List.unattach_attach] at h ⊢
    simp only [Ty.stable, Bool.and_eq_true, Ty.stableList_iff, List.mem_map] at h
    rw [simplifyWith_app, ih h.1]
    congr 1
    exact List.map_congr_left fun a ha => ihargs a ha (h.2 _ ⟨a, ha, rfl⟩)
  | case9 r ref hn b hb hkept hst =>
    have hng : b.isGenericNamed ref.generic = false := by
      cases b <;> simp_all [Ty.isGeneric, Ty.isGenericNamed]
    have hb' := (hs _ (settled_of_follow (r := r) hb hng (by
      rwa [simplifyWith_of_stable s i _ b hst]))).trans hb
    rw [simplifyWith_iface_of_get s' i (by simpa using hn) hb', if_neg hkept, if_pos hst]
  | case10 r ref hn b hb hkept hst ih =>
    have hng : b.isGenericNamed ref.generic = false := by
      cases b <;> simp_all [Ty.isGeneric, Ty.isGenericNamed]
    have hb' := (hs _ (settled_of_follow hb hng h)).trans hb
    rw [simplifyWith_iface_of_get s' i (by simpa using hn) hb', if_neg hkept, if_neg hst]
    exact ih h
  | case12 r t hg ha hi => rw [simplifyWith_other s' i hg ha hi]

/-- Scopes that bind every settled name as `s` does keep it settled, with the same type. -/
theorem simplify_agree {s' : Scopes} {x : String} (hx : s.Settled i x)
    (hs : ∀ y, s.Settled i y → s'.get i y = s.get i y) :
    s'.simplify i (.generic x) = s.simplify i (.generic x) := by
  rw [Settled, simplify_eq_simplifyWith] at hx
  rw [simplify_eq_simplifyWith, simplify_eq_simplifyWith, simplifyWith_agree hx hs]

end Scopes

end Verve
